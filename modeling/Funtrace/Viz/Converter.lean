/-
  Converting a trace sample (`TraceConverter` in `funtrace2viz/src/main.rs`).

  * `decodeThreads` runs the decoder over the threads of a sample; it gives the
    calls of `write_function_call_event` thread by thread (`sampleCalls`);
  * `writeFunctionCallEvent` turns such a call into JSON events;
  * `writeSampleToJson` is the conversion of a sample.

  The source interleaves the first two.  Nothing that `write_function_call_event`
  changes is read by the decoder, so the calls are listed first and made after.
  The JSON is kept as a record (`SampleJson`); `none` stands for a panic.
-/
import Mathlib.Algebra.Order.Field.Rat
import Funtrace.Viz.Decoder
import Funtrace.Viz.Ftrace

namespace Funtrace

/-! ## State and output -/

/-- `SourceCode`. -/
structure SourceCode where
  text : String
  numLines : ℕ
deriving DecidableEq

/-- The command line options. -/
structure Cli where
  executableFileInfo : Bool
  rawTimestamps : Bool
  maxEventAge : Option UInt64
  oldestEventTime : Option UInt64
  dry : Bool
  samples : List UInt32
  threads : List UInt64

/-- No option given. -/
def Cli.default : Cli := ⟨false, false, none, none, false, [], []⟩

/-- `TraceConverter`. -/
structure TraceConverter where
  args : Cli
  procaddr2sym : ProcAddr2Sym
  sourceCache : String → Option SourceCode
  symCache : UInt64 → Option SymInfo
  timeBase : UInt64
  cpuFreq : UInt64
  cmdLine : String
  firstEventInJson : Bool
  firstEventInThread : Bool
  numEvents : ℤ

/-- An element of `traceEvents`. -/
inductive JsonEvent where
  | threadName (pid tid : UInt64) (name : String)
  | processName (pid tid : UInt64) (name : String)
  | complete (tid : UInt64) (ts dur : ℚ) (name : String) (pid : UInt64)
deriving DecidableEq

/-- A JSON file.  `events` has a list for each thread of the sample. -/
structure SampleJson where
  events : List (List JsonEvent)
  systemTraceEvents : Option String
  files : List (String × SourceCode)
  functions : List (String × String × ℕ)
deriving DecidableEq

namespace TraceConverter

/-- `TraceConverter::new`. -/
def new (args : Cli) : TraceConverter :=
  { args, procaddr2sym := ProcAddr2Sym.new, sourceCache := fun _ => none
    symCache := fun _ => none, timeBase := 0, cpuFreq := 0, cmdLine := ""
    firstEventInJson := false, firstEventInThread := false, numEvents := 0 }

end TraceConverter

/-! ## Times -/

/-- `n as i32`, and the result of `i32` arithmetic. -/
def toI32 (n : ℤ) : ℤ := n.bmod (2 ^ 32)

/-- `n as u64` of an `i32`. -/
def i32AsU64 (n : ℤ) : ℕ := (n % 2 ^ 64).toNat

namespace FunctionCall
variable (cpuFreq timeBase : UInt64) (c : FunctionCall)

/-- The `i32` that a counter of extra nanoseconds is. -/
def extraNs32 : ℤ := toI32 c.extraNs

/-- Microseconds added to the return. -/
def extraRet : ℚ := if 0 < c.extraNs32 then i32AsU64 c.extraNs32 / 1000 else 0

/-- Microseconds subtracted from the call. -/
def extraCall : ℚ := if 0 < c.extraNs32 then 0 else i32AsU64 (toI32 (-c.extraNs32)) / 1000

/-- Cycles per microsecond, the unit of the JSON. -/
def cyclesPerUs : ℚ := cpuFreq.toNat / 1000000

/-- The `ts` of the JSON event. -/
def ts : ℚ := (c.callCycle - timeBase).toNat / cyclesPerUs cpuFreq - c.extraCall

/-- The `dur` of the JSON event. -/
def dur : ℚ :=
  (c.returnCycle - c.callCycle).toNat / cyclesPerUs cpuFreq + c.extraCall + c.extraRet

/-- The interval of the JSON event, in microseconds. -/
def interval : ℚ × ℚ := (c.ts cpuFreq timeBase, c.ts cpuFreq timeBase + c.dur cpuFreq)

/-- The calls for which there is an event. -/
def isComplete : Bool := c.returnCycle != 0 && c.callCycle != 0

end FunctionCall

/-! ## Names -/

/-- `from_utf8(name.filter(nonzero)).unwrap()`. -/
def ThreadID.nameStr (t : ThreadID) : Option String :=
  String.fromUTF8? ⟨(t.name.toList.filter (· != 0)).toArray⟩

/-- The string of `json_name`, without quotes and escapes. -/
def jsonName (printBinInfo : Bool) (sym : SymInfo) : String :=
  if printBinInfo then
    sym.demangledFunc ++ " (" ++ sym.file ++ ":" ++ toString sym.line ++ " 0x" ++
      String.ofList (Nat.toDigits 16 sym.staticAddr.toNat) ++ "@" ++ sym.executableFile ++ ")"
  else sym.demangledFunc ++ " (" ++ sym.file ++ ":" ++ toString sym.line ++ ")"

namespace TraceConverter

/-! ## Writing an event -/

/-- The metadata written before a thread's first event. -/
def threadMetadata (c : TraceConverter) (t : ThreadID) : Option (List JsonEvent) := do
  let name ← t.nameStr
  return .threadName t.pid t.tid name ::
    if t.pid = t.tid then [.processName t.pid t.tid c.cmdLine] else []

/-- Reads a source file, unless it is cached.  A file that cannot be opened counts as empty. -/
def cacheSource (w : World) (c : TraceConverter) (file : String) : Option TraceConverter :=
  match c.sourceCache file with
  | some _ => some c
  | none => do
    let bytes := (w.sourceFile file).getD []
    let text ← String.fromUTF8? ⟨bytes.toArray⟩
    return { c with sourceCache :=
      Function.update c.sourceCache file (some ⟨text, bytes.count 10⟩) }

/-- The metadata, if this is the thread's first event. -/
def startThread (c : TraceConverter) (t : ThreadID) : Option (TraceConverter × List JsonEvent) :=
  if c.firstEventInThread then do
    let metadata ← c.threadMetadata t
    return ({ c with firstEventInThread := false, firstEventInJson := false }, metadata)
  else some (c, [])

/-- The `ph:X` event of a call.  Dividing by a zero frequency panics. -/
def completeEvent (c : TraceConverter) (t : ThreadID) (call : FunctionCall) :
    Option (List JsonEvent) :=
  if call.isComplete then
    if c.cpuFreq = 0 then none
    else some [.complete t.tid (call.ts c.cpuFreq c.timeBase) (call.dur c.cpuFreq)
      (jsonName c.args.executableFileInfo call.sym) t.pid]
  else some []

/-- Writes the JSON events of one call, and adds its symbol to `funcset`. -/
def writeFunctionCallEvent (w : World) (t : ThreadID) (s : TraceConverter × List SymInfo)
    (call : FunctionCall) : Option ((TraceConverter × List SymInfo) × List JsonEvent) :=
  let c := { s.1 with numEvents := s.1.numEvents + 1 }
  if c.args.dry then some ((c, s.2), [])
  else do
    let (c, metadata) ← c.startThread t
    let event ← c.completeEvent t call
    let c ← c.cacheSource w call.sym.file
    return ((c, s.2.insert call.sym), metadata ++ event)

/-- The calls of a thread, in order. -/
def writeCalls (w : World) (t : ThreadID) : TraceConverter × List SymInfo → List FunctionCall →
    Option ((TraceConverter × List SymInfo) × List JsonEvent)
  | s, [] => some (s, [])
  | s, call :: calls => do
    let (s, es) ← writeFunctionCallEvent w t s call
    let (s, es') ← writeCalls w t s calls
    return (s, es ++ es')

/-! ## Decoding a sample -/

/-- Is the thread on the list of `--threads`? -/
def selects (c : TraceConverter) (t : ThreadTrace) : Bool :=
  c.args.threads.isEmpty || t.threadId.tid ∈ c.args.threads

/-- The threshold for events: by the maximal age, by the oldest time, or the oldest event. -/
def oldestEvent (c : TraceConverter) (sampleEntries : List ThreadTrace)
    (ftraceEvents : List FtraceEvent) : UInt64 :=
  let ts := sampleEntries.filter c.selects
  let oldest := ts.foldl (fun o t => min (t.trace.head t.nonempty).cycle o) (0 - 1)
  let youngest := ts.foldl (fun y t => max (t.trace.getLast t.nonempty).cycle y) 0
  let oldest := (ftraceEvents.head?.map fun e => min e.timestamp oldest).getD oldest
  let youngest := (ftraceEvents.getLast?.map fun e => max e.timestamp youngest).getD youngest
  match c.args.maxEventAge, c.args.oldestEventTime with
  | some maxAge, _ => youngest - maxAge
  | none, some oldestToReport => oldestToReport
  | none, none => oldest

/-- `fixts`: seconds with ten digits. -/
def fixts (c : TraceConverter) (timeBase ts : UInt64) : Option String :=
  if c.cpuFreq = 0 then none
  else some (rat2dec ((ts - timeBase).toNat / c.cpuFreq.toNat : ℚ) 10)

/-- The ftrace events of the first pass, which are not shifted in time. -/
def rawFtrace (c : TraceConverter) (ftraceText : String) : Option (List FtraceEvent) :=
  parseFtraceLines ftraceText (c.fixts 0)

/-- The ftrace events of the second pass, shifted by the time base. -/
def shiftedFtrace (c : TraceConverter) (ftraceText : String) (raw : List FtraceEvent) :
    Option (List FtraceEvent) :=
  if 0 < c.timeBase then parseFtraceLines ftraceText (c.fixts c.timeBase) else some raw

/-- The threshold for events, and the time at which the JSON starts. -/
def thresholds (c : TraceConverter) (sampleEntries : List ThreadTrace)
    (ftraceEvents : List FtraceEvent) : UInt64 × UInt64 :=
  let oldest := c.oldestEvent sampleEntries ftraceEvents
  (oldest, if c.args.rawTimestamps then 0 else oldest)

/-- The decoder over the threads of a sample; a thread that is not selected makes no calls. -/
def decodeThreads (w : World) (c : TraceConverter) (oldest : UInt64) :
    Lookup → List ThreadTrace → Lookup × List (List FunctionCall)
  | l, [] => (l, [])
  | l, t :: ts =>
    let r := if c.selects t then decodeThread w oldest l t else (l, [])
    let r' := decodeThreads w c oldest r.1 ts
    (r'.1, r.2 :: r'.2)

/-- The lookups at the start of a sample: `ignore_addrs` is new for each sample. -/
def lookup (c : TraceConverter) : Lookup := ⟨c.procaddr2sym, c.symCache, []⟩

/-- The calls of `write_function_call_event` made for a sample, thread by thread. -/
def sampleCalls (w : World) (c : TraceConverter) (sampleEntries : List ThreadTrace)
    (ftraceEvents : List FtraceEvent) : List (List FunctionCall) :=
  (c.decodeThreads w (c.oldestEvent sampleEntries ftraceEvents) c.lookup sampleEntries).2

/-! ## Writing a sample -/

/-- The calls of all threads.  After the calls of a selected thread its name is printed. -/
def writeThreads (w : World) : TraceConverter × List SymInfo →
    List (ThreadTrace × List FunctionCall) →
    Option ((TraceConverter × List SymInfo) × List (List JsonEvent))
  | s, [] => some (s, [])
  | s, (t, calls) :: ts =>
    if s.1.selects t then do
      let (s, es) ←
        writeCalls w t.threadId ({ s.1 with numEvents := 0, firstEventInThread := true }, s.2) calls
      let _ ← t.threadId.nameStr
      let (s, ess) ← writeThreads w s ts
      return (s, es :: ess)
    else do
      let (s, ess) ← writeThreads w s ts
      return (s, [] :: ess)

/-- The end of the JSON file: ftrace lines, source files and functions. -/
def finishJson (c : TraceConverter) (funcset : List SymInfo) (ftraceEvents : List FtraceEvent)
    (events : List (List JsonEvent)) : SampleJson :=
  let fileset := (funcset.map (·.file)).dedup
  { events
    systemTraceEvents :=
      if ftraceEvents.isEmpty then none
      else some ("# tracer: nop\n" ++ String.join (ftraceEvents.map (·.line ++ "\n")))
    files := fileset.filterMap fun file => (c.sourceCache file).map (file, ·)
    functions := funcset.map fun sym =>
      (jsonName c.args.executableFileInfo sym, sym.file,
        if sym.line ≤ 3 then sym.line else sym.line - 3) }

/-- The JSON file of a sample, none in a dry run. -/
def writeSampleToJson (w : World) (c : TraceConverter) (sampleEntries : List ThreadTrace)
    (ftraceText : String) : Option (TraceConverter × Option SampleJson) := do
  let c := { c with firstEventInJson := true }
  let ftraceEvents ← c.rawFtrace ftraceText
  let (oldest, timeBase) := c.thresholds sampleEntries ftraceEvents
  let c := { c with timeBase }
  let ftraceEvents ← c.shiftedFtrace ftraceText ftraceEvents
  let ftraceEvents := ftraceEvents.filter fun e => oldest ≤ e.timestamp
  let (l, calls) := c.decodeThreads w oldest c.lookup sampleEntries
  let l ← l.completed
  let c := { c with procaddr2sym := l.procaddr2sym, symCache := l.symCache }
  let ((c', funcset), events) ← writeThreads w (c, []) (sampleEntries.zip calls)
  return (c', if c.args.dry then none else some (c'.finishJson funcset ftraceEvents events))

end TraceConverter

end Funtrace
