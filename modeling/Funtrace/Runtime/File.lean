/-
  Writing a trace file (`write_chunk` and the functions that call it in `funtrace.cpp`).

  What is written is the list of its bytes.  A snapshot has what
  `funtrace_pause_and_write_current_snapshot` and `funtrace_write_snapshot` write;
  the first of these adds to the same file each time.
-/
import Funtrace.Entry
import Funtrace.Lib.Bytes
import Funtrace.Lib.Utf8

namespace Funtrace

/-! ## Chunks -/

/-- A chunk, with the string that tells its type. -/
structure Chunk where
  magic : List UInt8
  data : List UInt8
  length_magic : magic.length = 8
  length_data : data.length < 2 ^ 63

/-- `write_chunk`. -/
def writeChunk (magic data : List UInt8) : List UInt8 :=
  magic ++ u64Bytes (UInt64.ofNat data.length) ++ data

namespace Chunk

/-- The bytes of a chunk. -/
def bytes (c : Chunk) : List UInt8 := writeChunk c.magic c.data

@[simp] theorem length_bytes (c : Chunk) : c.bytes.length = 16 + c.data.length := by
  rw [bytes, writeChunk, List.length_append, List.length_append, c.length_magic, length_u64Bytes]

end Chunk

/-! ## Snapshots -/

/-- The bytes of a `trace_entry`. -/
def entryBytes (e : FunTraceEntry) : List UInt8 := u64Bytes e.address ++ u64Bytes e.cycle

/-- The bytes of a `ThreadID`. -/
def threadIdBytes (t : ThreadID) : List UInt8 := u64Bytes t.pid ++ u64Bytes t.tid ++ t.name.toList

@[simp] theorem length_entryBytes (e : FunTraceEntry) : (entryBytes e).length = 16 := by
  rw [entryBytes, List.length_append, length_u64Bytes, length_u64Bytes]

@[simp] theorem length_threadIdBytes (t : ThreadID) : (threadIdBytes t).length = 32 := by
  simp [threadIdBytes]

/-- The entries of a thread, in the order in which they lie in its buffer. -/
structure EventBuffer where
  id : ThreadID
  buf : List FunTraceEntry
  length_buf : 16 * buf.length < 2 ^ 63

namespace EventBuffer
variable (t : EventBuffer)

/-- The bytes of the buffer. -/
def bufBytes : List UInt8 := t.buf.flatMap entryBytes

theorem length_bufBytes : t.bufBytes.length = 16 * t.buf.length :=
  length_flatMap_record length_entryBytes t.buf

end EventBuffer

/-- The events of ftrace, each with its newline. -/
def ftraceBytes (events : List (List UInt8)) : List UInt8 := events.flatMap fun e => e ++ [10]

/-- What is written of a snapshot: texts are the bytes that make them up. -/
structure FileSnapshot where
  procmaps : List UInt8
  cpuFreq : UInt64
  cmdline : List UInt8
  threadTraces : List EventBuffer
  ftraceEvents : List (List UInt8)
  length_procmaps : procmaps.length < 2 ^ 63
  length_cmdline : cmdline.length < 2 ^ 63
  length_ftraceEvents : (ftraceBytes ftraceEvents).length < 2 ^ 63

namespace FileSnapshot
variable (s : FileSnapshot)

/-- `write_procmaps`. -/
def writeProcmaps : List UInt8 := writeChunk (utf8Bytes "PROCMAPS") s.procmaps

/-- `write_funtrace`. -/
def writeFuntrace : List UInt8 :=
  writeChunk (utf8Bytes "FUNTRACE") (u64Bytes s.cpuFreq) ++ writeChunk (utf8Bytes "CMD LINE") s.cmdline

/-- `write_tracebufs`. -/
def writeTracebufs : List UInt8 :=
  s.threadTraces.flatMap fun trace =>
    writeChunk (utf8Bytes "THREADID") (threadIdBytes trace.id) ++
      writeChunk (utf8Bytes "TRACEBUF") trace.bufBytes

/-- `write_ftrace`. -/
def writeFtrace : List UInt8 :=
  if s.ftraceEvents = [] then []
  else
    let size := s.ftraceEvents.foldl (fun size e => size + (e.length + 1)) 0
    utf8Bytes "FTRACETX" ++ u64Bytes (UInt64.ofNat size) ++ ftraceBytes s.ftraceEvents

/-- `write_endtrace`. -/
def writeEndtrace : List UInt8 := writeChunk (utf8Bytes "ENDTRACE") []

/-- What is written of a snapshot. -/
def bytes : List UInt8 :=
  s.writeProcmaps ++ s.writeFuntrace ++ s.writeTracebufs ++ s.writeFtrace ++ writeEndtrace

end FileSnapshot

/-- A file to which some snapshots were written. -/
def fileBytes (snapshots : List FileSnapshot) : List UInt8 := snapshots.flatMap FileSnapshot.bytes

end Funtrace
