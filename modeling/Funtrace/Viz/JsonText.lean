/-
  The text of the JSON files (`json.write` in `write_function_call_event` and
  `write_sample_to_json` of `funtrace2viz/src/main.rs`).

  The functions are those of `Converter` once more, with what they write in the order
  in which they do.  A panic leaves what has been written before it.
-/
import Funtrace.Lib.Json
import Funtrace.Lib.Written
import Funtrace.Viz.Converter

namespace Funtrace

open Written

/-- The decimal places of `ts` and `dur`, in microseconds. -/
def digits : ℕ := 4

/-- What the text depends on besides the sample: how a string is serialized
    (`Value::String(s).to_string()`), and in which order hash sets are iterated. -/
structure Printer where
  string : String → String
  iterSyms : List SymInfo → List SymInfo
  iterFiles : List String → List String
  quotes : ∀ s, Json.Quotes (string s) s
  perm_iterSyms : ∀ l, (iterSyms l).Perm l
  perm_iterFiles : ∀ l, (iterFiles l).Perm l

namespace Printer

/-- Sets are iterated in the order in which they are kept. -/
def inOrder : Printer := ⟨Json.quote, id, id, Json.quotes_quote, fun _ => .refl _, fun _ => .refl _⟩

variable (p : Printer)

/-! ## Events -/

/-- An element of `traceEvents`. -/
def event : JsonEvent → String
  | .threadName pid tid name =>
    "\x7b\"ph\":\"M\",\"pid\":" ++ toString pid ++ ",\"tid\":" ++ toString tid ++
      ",\"name\":\"thread_name\",\"args\":\x7b\"name\":" ++ p.string name ++ "\x7d\x7d"
  | .processName pid tid name =>
    "\x7b\"ph\":\"M\",\"pid\":" ++ toString pid ++ ",\"tid\":" ++ toString tid ++
      ",\"name\":\"process_name\",\"args\":\x7b\"name\":" ++ p.string name ++ "\x7d\x7d"
  | .complete tid ts dur name pid =>
    "\x7b\"tid\":" ++ toString tid ++ ",\"ts\":" ++ rat2dec ts digits ++ ",\"dur\":" ++
      rat2dec dur digits ++ ",\"name\":" ++ p.string name ++ ",\"ph\":\"X\",\"pid\":" ++
      toString pid ++ "\x7d"

/-- Elements with commas between them; the first of the file has none before it. -/
def events : Bool → List JsonEvent → String
  | _, [] => ""
  | first, e :: es => (if first then "" else "\n,") ++ p.event e ++ events false es

/-! ## The rest of the file -/

/-- The lines of ftrace, if there are any. -/
def systemTrace (ftraceEvents : List FtraceEvent) : String :=
  if ftraceEvents.isEmpty then ""
  else "\"systemTraceEvents\": " ++
    p.string ("# tracer: nop\n" ++ String.join (ftraceEvents.map (·.line ++ "\n"))) ++ ",\n"

/-- The source files, with a comma after all but the last. -/
def files (sourceCache : String → Option SourceCode) (fileset : List String) : String :=
  String.join (fileset.zipIdx.map fun (file, i) =>
    match sourceCache file with
    | some code => p.string file ++ ":[" ++ p.string code.text ++ "," ++ toString code.numLines ++
        if i = fileset.length - 1 then "]\n" else "],\n"
    | none => "")

/-- Where the functions are defined. -/
def functions (executableFileInfo : Bool) (funcset : List SymInfo) : String :=
  String.join (funcset.zipIdx.map fun (sym, i) =>
    p.string (jsonName executableFileInfo sym) ++ ":[" ++ p.string sym.file ++ "," ++
      toString (if sym.line ≤ 3 then sym.line else sym.line - 3) ++ "]" ++
      (if i = funcset.length - 1 then "" else ",") ++ "\n")

/-- What follows the events. -/
def finish (c : TraceConverter) (funcset : List SymInfo) (ftraceEvents : List FtraceEvent) : String :=
  let fileset := p.iterFiles ((funcset.map (·.file)).dedup)
  "],\n" ++ p.systemTrace ftraceEvents ++
    "\"viztracer_metadata\": \x7b\n  \"version\": \"0.16.3\",\n  \"overflow\": false,\n" ++
    "  \"producer\": \"funtrace2viz\"\n\x7d,\n\"file_info\": \x7b\n\"files\": \x7b\n" ++
    p.files c.sourceCache fileset ++ "\x7d,\n\"functions\": \x7b\n" ++
    p.functions c.args.executableFileInfo (p.iterSyms funcset) ++ "\x7d\x7d\x7d\n"

end Printer

namespace TraceConverter
variable (p : Printer) (w : World)

/-! ## Writing a sample -/

/-- The events of one call. -/
def printFunctionCallEvent (t : ThreadID) (s : TraceConverter × List SymInfo) (call : FunctionCall) :
    Written (TraceConverter × List SymInfo) :=
  let c := { s.1 with numEvents := s.1.numEvents + 1 }
  if c.args.dry then pure (c, s.2)
  else do
    let (c', metadata) ← unwrap (c.startThread t)
    write (p.events c.firstEventInJson metadata)
    let event ← unwrap (c'.completeEvent t call)
    write (p.events false event)
    let c' ← unwrap (c'.cacheSource w call.sym.file)
    return (c', s.2.insert call.sym)

/-- The calls of a thread. -/
def printCalls (t : ThreadID) : TraceConverter × List SymInfo → List FunctionCall →
    Written (TraceConverter × List SymInfo)
  | s, [] => pure s
  | s, call :: calls => do
    let s ← printFunctionCallEvent p w t s call
    printCalls t s calls

/-- The calls of all threads. -/
def printThreads : TraceConverter × List SymInfo → List (ThreadTrace × List FunctionCall) →
    Written (TraceConverter × List SymInfo)
  | s, [] => pure s
  | s, (t, calls) :: ts =>
    if s.1.selects t then do
      let s ← printCalls p w t.threadId
        ({ s.1 with numEvents := 0, firstEventInThread := true }, s.2) calls
      let _ ← unwrap t.threadId.nameStr
      printThreads s ts
    else printThreads s ts

/-- The calls made for the entries of a thread, up to a lookup that panics. -/
def callsBeforePanic (oldest earliest : UInt64) : Lookup × Dec → List FunTraceEntry → List FunctionCall
  | _, [] => []
  | s, entry :: entries =>
    let r := threadStep w oldest earliest s entry
    if r.1.1.procaddr2sym.panicked then []
    else r.2 ++ callsBeforePanic oldest earliest r.1 entries

/-- The threads of a sample, up to the one in which a lookup panics, with their calls. -/
def threadsBeforePanic (c : TraceConverter) (oldest : UInt64) :
    Lookup → List ThreadTrace → List (ThreadTrace × List FunctionCall)
  | _, [] => []
  | l, t :: ts =>
    let r := if c.selects t then decodeThread w oldest l t else (l, [])
    if r.1.procaddr2sym.panicked then
      let earliest := max (t.trace.head t.nonempty).cycle oldest
      [(t, callsBeforePanic w oldest earliest (l, Dec.init) t.trace)]
    else (t, r.2) :: threadsBeforePanic c oldest r.1 ts

/-- The events of a sample and what follows them.  A lookup that panics ends the file. -/
def printDecoded (c : TraceConverter) (oldest : UInt64) (sampleEntries : List ThreadTrace)
    (ftraceEvents : List FtraceEvent) : Written TraceConverter :=
  let (l, calls) := c.decodeThreads w oldest c.lookup sampleEntries
  match l.completed with
  | none => do
    let _ ← printThreads p w (c, []) (threadsBeforePanic w c oldest c.lookup sampleEntries)
    unwrap none
  | some l => do
    let c := { c with procaddr2sym := l.procaddr2sym, symCache := l.symCache }
    let (c', funcset) ← printThreads p w (c, []) (sampleEntries.zip calls)
    write (if c'.args.dry then "" else p.finish c' funcset ftraceEvents)
    return c'

/-- The JSON file of a sample. -/
def printSampleToJson (c : TraceConverter) (sampleEntries : List ThreadTrace) (ftraceText : String) :
    Written TraceConverter := do
  let c := { c with firstEventInJson := true }
  write (if c.args.dry then "" else "\x7b\n\"traceEvents\": [\n")
  let ftraceEvents ← unwrap (c.rawFtrace ftraceText)
  let (oldest, timeBase) := c.thresholds sampleEntries ftraceEvents
  let c := { c with timeBase }
  let ftraceEvents ← unwrap (c.shiftedFtrace ftraceText ftraceEvents)
  let ftraceEvents := ftraceEvents.filter fun e => oldest ≤ e.timestamp
  printDecoded p w c oldest sampleEntries ftraceEvents

end TraceConverter

end Funtrace
