/-
  Reading a trace file (`parse_chunks` in `funtrace2viz/src/main.rs`).

  A file is a list of bytes, and the position of the file cursor may lie behind its
  end.  Each turn of the loop reads the magic and the length of a chunk; then it reads
  the content and handles it (`handleChunk`), or skips it.

  The loop has a result when it is left: at the end of the file, with an error, or
  with a panic.  A state lists the calls of `write_sample_to_json` made so far.
-/
import Funtrace.Lib.Bytes
import Funtrace.Lib.Loop
import Funtrace.Lib.Utf8
import Funtrace.Viz.Converter

namespace Funtrace

/-! ## The file -/

/-- `MAGIC_LEN`. -/
def magicLen : ℕ := 8

/-- `LENGTH_LEN`. -/
def lengthLen : ℕ := 8

/-- `read_exact`; it leaves the cursor behind what is read. -/
def readExact (file : List UInt8) (pos n : ℕ) : Option (List UInt8) :=
  if n = 0 ∨ pos + n ≤ file.length then some ((file.drop pos).take n) else none

/-- `seek(SeekFrom::Current(length as i64))`. -/
def seekCurrent (pos : ℕ) (length : UInt64) : Option ℕ :=
  let target := (pos : ℤ) + length.toInt64.toInt
  if 0 ≤ target ∧ target < 2 ^ 63 then some target.toNat else none

/-! ## Chunks -/

/-- The types of chunks that are known. -/
inductive ChunkType where
  | funtrace
  | cmdLine
  | endtrace
  | procmaps
  | threadid
  | tracebuf
  | ftracetx
deriving DecidableEq

namespace ChunkType

/-- The eight bytes that a chunk of the type begins with. -/
def magic : ChunkType → List UInt8
  | funtrace => utf8Bytes "FUNTRACE"
  | cmdLine => utf8Bytes "CMD LINE"
  | endtrace => utf8Bytes "ENDTRACE"
  | procmaps => utf8Bytes "PROCMAPS"
  | threadid => utf8Bytes "THREADID"
  | tracebuf => utf8Bytes "TRACEBUF"
  | ftracetx => utf8Bytes "FTRACETX"

/-- The order in which `parse_chunks` compares. -/
def all : List ChunkType := [funtrace, cmdLine, endtrace, procmaps, threadid, tracebuf, ftracetx]

/-- The type of a chunk that begins so. -/
def ofMagic (magic : List UInt8) : Option ChunkType := all.find? (·.magic = magic)

/-- The lengths with which a chunk is read; with another it is skipped. -/
def accepts (length : UInt64) : ChunkType → Bool
  | funtrace => length == 8
  | endtrace => length == 0
  | threadid => length == 32
  | tracebuf => length % 16 == 0
  | cmdLine | procmaps | ftracetx => true

end ChunkType

/-- The entry in sixteen bytes. -/
def entryOfBytes (bytes : List UInt8) : FunTraceEntry :=
  ⟨u64OfBytes (bytes.take 8), u64OfBytes (bytes.drop 8)⟩

/-- The entries of a `TRACEBUF`. -/
def entriesOfBytes (bytes : List UInt8) : List FunTraceEntry := (pieces 16 bytes).map entryOfBytes

/-- `bytes_of_mut(&mut thread_id)`. -/
def threadIdOfBytes (bytes : List UInt8) : ThreadID where
  pid := u64OfBytes (bytes.take 8)
  tid := u64OfBytes ((bytes.drop 8).take 8)
  name := Vector.ofFn fun i => bytes.getD (16 + i) 0

/-- The entries that are kept of a `TRACEBUF` chunk: `sort_by_key` is stable. -/
def keptEntries (bytes : List UInt8) : List FunTraceEntry :=
  ((entriesOfBytes bytes).filter (!·.isEmpty)).insertionSort (·.cycle ≤ ·.cycle)

/-! ## The state -/

/-- A call of `write_sample_to_json`, and the file that it writes; `none` is no file, or what is
    left of one after a panic. -/
structure WrittenSample where
  index : UInt32
  cpuFreq : UInt64
  cmdLine : String
  sampleEntries : List ThreadTrace
  ftraceText : String
  json : Option SampleJson

/-- The variables of `parse_chunks`, and what has been written so far. -/
structure ParseState where
  converter : TraceConverter
  sampleEntries : List ThreadTrace
  numJson : UInt32
  threadId : ThreadID
  ftraceText : String
  written : List WrittenSample

namespace ParseState

/-- Before the first chunk. -/
def new (args : Cli) : ParseState where
  converter := TraceConverter.new args
  sampleEntries := []
  numJson := 0
  threadId := ⟨0, 0, Vector.replicate 16 0⟩
  ftraceText := ""
  written := []

variable (w : World) (s : ParseState)

/-- Something of a sample has been read. -/
def pending : Bool := !s.sampleEntries.isEmpty || !s.ftraceText.isEmpty

/-- Is the sample on the list of `--samples`? -/
def selected : Bool := s.converter.args.samples.isEmpty || s.numJson ∈ s.converter.args.samples

/-- A call of `write_sample_to_json`; an error is the state in which it panics. -/
def writeSample : Except ParseState ParseState :=
  let record (json : Option SampleJson) : List WrittenSample :=
    s.written ++ [⟨s.numJson, s.converter.cpuFreq, s.converter.cmdLine, s.sampleEntries, s.ftraceText, json⟩]
  match s.converter.writeSampleToJson w s.sampleEntries s.ftraceText with
  | some (converter, json) => .ok { s with converter, written := record json }
  | none => .error { s with written := record none }

/-- The next sample has another number, and begins with nothing. -/
def nextSample : ParseState :=
  { s with numJson := s.numJson + 1, sampleEntries := [], ftraceText := "" }

/-- `ENDTRACE`. -/
def endTrace : Except ParseState ParseState :=
  if s.pending then (if s.selected then s.writeSample w else .ok s).map nextSample else .ok s

/-- What follows the loop: a sample that was not closed. -/
def unclosed : Except ParseState ParseState := if s.pending then s.writeSample w else .ok s

/-- The branches of the loop that read the content of a chunk; an error is a panic. -/
def handleChunk (content : List UInt8) : ChunkType → Except ParseState ParseState
  | .funtrace => .ok { s with converter := { s.converter with cpuFreq := u64OfBytes content } }
  | .cmdLine =>
    match decodeUtf8 content with
    | some cmdLine => .ok { s with converter := { s.converter with cmdLine } }
    | none => .error s
  | .endtrace => s.endTrace w
  | .procmaps =>
    match s.converter.procaddr2sym.setProcMaps w content with
    | some procaddr2sym =>
      .ok { s with converter := { s.converter with procaddr2sym, symCache := fun _ => none } }
    | none => .error s
  | .threadid => .ok { s with threadId := threadIdOfBytes content }
  | .tracebuf =>
    if h : keptEntries content ≠ [] then
      .ok { s with sampleEntries := s.sampleEntries ++ [⟨s.threadId, keptEntries content, h⟩] }
    else .ok s
  | .ftracetx =>
    match decodeUtf8 content with
    | some ftraceText => .ok { s with ftraceText }
    | none => .error s

end ParseState

/-! ## The loop -/

/-- How `parse_chunks` ends. -/
inductive Exit where
  | done
  | error
  | panic
deriving DecidableEq

/-- A turn of the loop, from a position and a state. -/
def chunkStep (w : World) (file : List UInt8) (s : ℕ × ParseState) :
    (ℕ × ParseState) ⊕ (Exit × ParseState) :=
  match readExact file s.1 magicLen with
  | none => .inr (.done, s.2)
  | some magic =>
    match readExact file (s.1 + magicLen) lengthLen with
    | none => .inr (.error, s.2)
    | some lengthBytes =>
      let length := u64OfBytes lengthBytes
      let pos := s.1 + magicLen + lengthLen
      match (ChunkType.ofMagic magic).filter (ChunkType.accepts length) with
      | none =>
        match seekCurrent pos length with
        | some pos => .inl (pos, s.2)
        | none => .inr (.error, s.2)
      | some type =>
        -- a vector cannot have more bytes
        if 2 ^ 63 ≤ length.toNat then .inr (.panic, s.2)
        else match readExact file pos length.toNat with
          | none => .inr (.error, s.2)
          | some content =>
            match s.2.handleChunk w content type with
            | .ok s' => .inl (pos + length.toNat, s')
            | .error s' => .inr (.panic, s')

/-- What follows the loop: at the end of the file, a sample that was not closed is written. -/
def finish (w : World) : Exit × ParseState → Exit × ParseState
  | (.done, s) =>
    match s.unclosed w with
    | .ok s' => (.done, s')
    | .error s' => (.panic, s')
  | r => r

/-- `parse_chunks` with a number of turns that its loop may make. -/
def parseChunks (w : World) (args : Cli) (file : List UInt8) (fuel : ℕ) :
    Option (Exit × ParseState) :=
  (loop (chunkStep w file) fuel (0, ParseState.new args)).map (finish w)

/-- How `parse_chunks` ends, and with which state. -/
def Parses (w : World) (args : Cli) (file : List UInt8) (r : Exit × ParseState) : Prop :=
  ∃ fuel, parseChunks w args file fuel = some r

end Funtrace
