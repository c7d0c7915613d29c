/-
  The files that are written are JSON, and closed.

  `WellFormed` says what a file is for: its text is that of a JSON document in which
  what the events refer to is there.  It holds of what `write_sample_to_json` writes
  unless the decoder panics, on a line of ftrace or over an executable (`wellFormed_iff`).
-/
import Funtrace.Proof.JsonText
import Funtrace.Proof.Rat2dec

namespace Funtrace

open Json Written

/-! ## Documents -/

/-- The value that an event is. -/
def JsonEvent.value : JsonEvent → Json
  | .threadName pid tid name => .obj [("ph", .str "M"), ("pid", .num (toString pid)),
      ("tid", .num (toString tid)), ("name", .str "thread_name"), ("args", .obj [("name", .str name)])]
  | .processName pid tid name => .obj [("ph", .str "M"), ("pid", .num (toString pid)),
      ("tid", .num (toString tid)), ("name", .str "process_name"), ("args", .obj [("name", .str name)])]
  | .complete tid ts dur name pid => .obj [("tid", .num (toString tid)),
      ("ts", .num (rat2dec ts digits)), ("dur", .num (rat2dec dur digits)), ("name", .str name),
      ("ph", .str "X"), ("pid", .num (toString pid))]

namespace SampleJson
variable (s : SampleJson)

/-- A source file: its text and how many lines it has. -/
def fileField (f : String × SourceCode) : String × Json :=
  (f.1, .arr [.str f.2.text, .num (toString f.2.numLines)])

/-- A function: its file and line. -/
def functionField (f : String × String × ℕ) : String × Json :=
  (f.1, .arr [.str f.2.1, .num (toString f.2.2)])

/-- The sources and functions. -/
def fileInfo : Json :=
  .obj [("files", .obj (s.files.map fileField)), ("functions", .obj (s.functions.map functionField))]

/-- The fields about the file itself. -/
def metadata : Json :=
  .obj [("version", .str "0.16.3"), ("overflow", .bool false), ("producer", .str "funtrace2viz")]

/-- The JSON document of a sample. -/
def document : Json :=
  .obj (("traceEvents", .arr (s.events.flatten.map JsonEvent.value)) ::
    (s.systemTraceEvents.toList.map fun text => ("systemTraceEvents", .str text)) ++
      [("viztracer_metadata", metadata), ("file_info", s.fileInfo)])

/-- What the events refer to is there. -/
structure Closed : Prop where
  named : Named s.events.flatten
  functions : ∀ tid ts dur name pid, JsonEvent.complete tid ts dur name pid ∈ s.events.flatten →
    ∃ file line, (name, file, line) ∈ s.functions
  files : ∀ f ∈ s.functions, ∃ code, (f.2.1, code) ∈ s.files

end SampleJson

/-- **What a JSON file is to be.** -/
def WellFormed (text : String) : Prop := ∃ s : SampleJson, Json.Reads text s.document ∧ s.Closed

/-! ## Texts of events -/

section
variable (p : Printer)

theorem derives_nat (n : ℕ) : Derives (.padded (.num (toString n))) (toString n) :=
  (Derives.num (isNumber_toString n)).pad

theorem derives_string (s : String) : Derives (.padded (.str s)) (p.string s) :=
  (Derives.str (p.quotes s)).pad

theorem derives_event (e : JsonEvent) : Derives (.value e.value) (p.event e) := by
  have hnum (x : UInt64) : Derives (.padded (.num (toString x))) (toString x) := derives_nat x.toNat
  have hrat (x : ℚ) : Derives (.padded (.num (rat2dec x digits))) (rat2dec x digits) :=
    (Derives.num (isNumber_rat2dec x (by decide))).pad
  have hplain {s : String} (hs : IsPlain s) : Derives (.padded (.str s)) ("\"" ++ s ++ "\"") :=
    (Derives.str (quotes_plain hs)).pad
  have hname (name : String) : Derives (.padded (.obj [("name", .str name)]))
      ("\x7b" ++ fieldsText [("name", .str name, p.string name)] ++ "\x7d") := by
    refine (derives_object [("name", .str name, p.string name)] (by simp) ?_).pad
    rintro f hf
    obtain rfl := List.mem_singleton.1 hf
    exact ⟨by dsimp only; decide, derives_string p name⟩
  have hmetadata (kind : String) (hkind : IsPlain kind) (pid tid : UInt64) (name : String) :=
    derives_object [("ph", .str "M", "\"" ++ "M" ++ "\""), ("pid", .num (toString pid), toString pid),
      ("tid", .num (toString tid), toString tid), ("name", .str kind, "\"" ++ kind ++ "\""),
      ("args", .obj [("name", .str name)],
        "\x7b" ++ fieldsText [("name", .str name, p.string name)] ++ "\x7d")] (by simp) (by
      simp only [List.forall_mem_cons]
      exact ⟨⟨by decide, hplain (by decide)⟩, ⟨by decide, hnum pid⟩, ⟨by decide, hnum tid⟩,
        ⟨by decide, hplain hkind⟩, ⟨by decide, hname name⟩, List.forall_mem_nil _⟩)
  -- The texts are compared as lists of characters, in which the parts that vary are variables.
  cases e with
  | threadName pid tid name =>
    have h : Derives (.value (JsonEvent.threadName pid tid name).value) _ :=
      hmetadata "thread_name" (by decide) pid tid name
    refine h.congr ?_
    rw [← String.toList_inj]
    delta Printer.event
    simp only [fieldsText, String.toList_append, List.append_assoc]
    generalize (toString pid).toList = pid, (toString tid).toList = tid,
      (p.string name).toList = name
    rfl
  | processName pid tid name =>
    have h : Derives (.value (JsonEvent.processName pid tid name).value) _ :=
      hmetadata "process_name" (by decide) pid tid name
    refine h.congr ?_
    rw [← String.toList_inj]
    delta Printer.event
    simp only [fieldsText, String.toList_append, List.append_assoc]
    generalize (toString pid).toList = pid, (toString tid).toList = tid,
      (p.string name).toList = name
    rfl
  | complete tid ts dur name pid =>
    have h : Derives (.value (JsonEvent.complete tid ts dur name pid).value) _ :=
      derives_object [("tid", .num (toString tid), toString tid),
        ("ts", .num (rat2dec ts digits), rat2dec ts digits),
        ("dur", .num (rat2dec dur digits), rat2dec dur digits), ("name", .str name, p.string name),
        ("ph", .str "X", "\"" ++ "X" ++ "\""), ("pid", .num (toString pid), toString pid)] (by simp) (by
        simp only [List.forall_mem_cons]
        exact ⟨⟨by decide, hnum tid⟩, ⟨by decide, hrat ts⟩, ⟨by decide, hrat dur⟩,
          ⟨by decide, derives_string p name⟩, ⟨by decide, hplain (by decide)⟩, ⟨by decide, hnum pid⟩,
          List.forall_mem_nil _⟩)
    refine h.congr ?_
    rw [← String.toList_inj]
    delta Printer.event
    simp only [fieldsText, String.toList_append, List.append_assoc]
    generalize (toString pid).toList = pid, (toString tid).toList = tid,
      (p.string name).toList = name, (rat2dec ts digits).toList = ts,
      (rat2dec dur digits).toList = dur
    rfl

/-- Events with commas between them are the items of an array. -/
theorem derives_events : ∀ (es : List JsonEvent) (e : JsonEvent) {w : String}, IsBlank w →
    Derives (.items ((e :: es).map JsonEvent.value)) (w ++ p.event e ++ p.events false es)
  | [], e, w, hw => by
    refine (Derives.item (.padded hw (derives_event p e) isBlank_empty)).congr ?_
    simp [Printer.events]
  | e' :: es, e, w, hw => by
    refine (Derives.items (.padded hw (derives_event p e) isBlank_newline)
      (derives_events es e' isBlank_empty)).congr ?_
    rw [Printer.events, ← String.toList_inj]
    simp

theorem derives_traceEvents (es : List JsonEvent) :
    Derives (.value (.arr (es.map JsonEvent.value))) ("[" ++ ("\n" ++ p.events true es) ++ "]") := by
  cases es with
  | nil => exact .emptyArr (by rw [Printer.events, String.append_empty]; exact isBlank_newline)
  | cons e es =>
    refine (Derives.arr (derives_events p es e isBlank_newline)).congr ?_
    rw [Printer.events, ← String.toList_inj]
    simp

/-! ## Texts of source files and functions -/

/-- An array of a string and a number. -/
theorem derives_pair (s : String) (n : ℕ) : Derives (.value (.arr [.str s, .num (toString n)]))
    ("[" ++ (p.string s ++ "," ++ toString n) ++ "]") :=
  .arr (.items (derives_string p s) (.item (derives_nat n)))

/-- The source files that are written. -/
def cachedFiles (sourceCache : String → Option SourceCode) (fileset : List String) :
    List (String × SourceCode) :=
  fileset.filterMap fun file => (sourceCache file).map (file, ·)

theorem derives_files {sourceCache : String → Option SourceCode} {fileset : List String}
    (h : ∀ file ∈ fileset, (sourceCache file).isSome) :
    Derives (.value (.obj ((cachedFiles sourceCache fileset).map SampleJson.fileField)))
      ("\x7b" ++ ("\n" ++ p.files sourceCache fileset) ++ "\x7d") := by
  obtain ⟨code, hcode⟩ : ∃ code : String → SourceCode, ∀ file ∈ fileset,
      sourceCache file = some (code file) := by
    refine ⟨fun file => (sourceCache file).getD ⟨"", 0⟩, fun file hfile => ?_⟩
    obtain ⟨c, hc⟩ := Option.isSome_iff_exists.1 (h file hfile)
    simp [hc]
  have hcached : cachedFiles sourceCache fileset = fileset.map fun file => (file, code file) := by
    rw [cachedFiles, ← List.filterMap_eq_map]
    refine List.filterMap_congr fun file hfile => ?_
    rw [hcode file hfile]
    rfl
  set text : String → String := fun file =>
    p.string file ++ ":" ++ ("[" ++ (p.string (code file).text ++ "," ++
      toString (code file).numLines) ++ "]") with htext
  have hfiles : p.files sourceCache fileset = joinWith ",\n" "\n" (fileset.map text) := by
    rw [← join_zipIdx text ",\n" "\n" fileset 0 (fileset.length - 1) (by omega), Printer.files]
    congr 1
    refine List.map_congr_left fun x hx => ?_
    obtain ⟨file, i⟩ := x
    have hfile : file ∈ fileset := (List.mem_zipIdx' hx).2 ▸ List.getElem_mem _
    simp only [hcode file hfile, htext]
    rw [← String.toList_inj]
    split_ifs <;> simp
  rw [hcached, List.map_map, hfiles]
  exact derives_lines _ text fun file _ => ⟨p.string file, _, rfl, p.quotes file, derives_pair p _ _⟩

/-- The functions that are written. -/
def functionLines (executableFileInfo : Bool) (funcset : List SymInfo) : List (String × String × ℕ) :=
  funcset.map fun sym =>
    (jsonName executableFileInfo sym, sym.file, if sym.line ≤ 3 then sym.line else sym.line - 3)

theorem derives_functions (executableFileInfo : Bool) (funcset : List SymInfo) :
    Derives (.value (.obj ((functionLines executableFileInfo funcset).map SampleJson.functionField)))
      ("\x7b" ++ ("\n" ++ p.functions executableFileInfo funcset) ++ "\x7d") := by
  set text : SymInfo → String := fun sym => p.string (jsonName executableFileInfo sym) ++ ":" ++
    ("[" ++ (p.string sym.file ++ "," ++ toString (if sym.line ≤ 3 then sym.line else sym.line - 3)) ++
      "]") with htext
  have hfunctions : p.functions executableFileInfo funcset =
      joinWith ",\n" "\n" (funcset.map text) := by
    rw [← join_zipIdx text ",\n" "\n" funcset 0 (funcset.length - 1) (by omega), Printer.functions]
    congr 1
    refine List.map_congr_left fun x _ => ?_
    obtain ⟨sym, i⟩ := x
    simp only [htext]
    rw [← String.toList_inj]
    by_cases hi : i = funcset.length - 1 <;> simp [hi]
  rw [functionLines, List.map_map, hfunctions]
  exact derives_lines _ text fun sym _ => ⟨_, _, rfl, p.quotes _, derives_pair p _ _⟩

/-! ## The whole text -/

theorem derives_metadata : Derives (.value SampleJson.metadata)
    ("\x7b\n  \"version\": \"0.16.3\",\n  \"overflow\": false,\n" ++
      "  \"producer\": \"funtrace2viz\"\n\x7d") := by
  have hblank : IsBlank "\n  " := by decide
  have hproducer := Derives.oneSpacedField hblank (k := "producer") (by decide)
    (.str (quotes_plain (s := "funtrace2viz") (by decide))) isBlank_newline
  have hoverflow := Derives.addSpacedField hblank (k := "overflow") (by decide) .false hproducer
  exact .obj (Derives.addSpacedField hblank (k := "version") (by decide)
    (.str (quotes_plain (s := "0.16.3") (by decide))) hoverflow)

theorem reads_document (s : SampleJson) {metadata events files functions : String}
    (hmetadata : Derives (.value SampleJson.metadata) metadata)
    (hevents : Derives (.value (.arr (s.events.flatten.map JsonEvent.value))) ("[" ++ events ++ "]"))
    (hfiles : Derives (.value (.obj (s.files.map SampleJson.fileField)))
      ("\x7b" ++ files ++ "\x7d"))
    (hfunctions : Derives (.value (.obj (s.functions.map SampleJson.functionField)))
      ("\x7b" ++ functions ++ "\x7d")) :
    Json.Reads ("\x7b\n\"traceEvents\": [" ++ events ++ "],\n" ++
      (s.systemTraceEvents.elim "" fun text => "\"systemTraceEvents\": " ++ p.string text ++ ",\n") ++
      "\"viztracer_metadata\": " ++ metadata ++ ",\n\"file_info\": \x7b\n\"files\": \x7b" ++ files ++
      "\x7d,\n\"functions\": \x7b" ++ functions ++ "\x7d\x7d\x7d\n") s.document := by
  have hinfo := Derives.addSpacedField isBlank_newline (k := "files") (by decide) hfiles
    (Derives.oneSpacedField isBlank_newline (k := "functions") (by decide) hfunctions isBlank_empty)
  have hend := Derives.addSpacedField isBlank_newline (k := "viztracer_metadata") (by decide)
    hmetadata (Derives.oneSpacedField isBlank_newline (k := "file_info") (by decide)
      (.obj hinfo) isBlank_empty)
  cases hsystem : s.systemTraceEvents with
  | none =>
    have h := Derives.padded isBlank_empty (.obj (Derives.addSpacedField isBlank_newline
      (k := "traceEvents") (by decide) hevents hend)) isBlank_newline
    rw [Json.Reads, SampleJson.document, hsystem]
    refine h.congr ?_
    rw [← String.toList_inj]
    simp only [String.toList_append, List.append_assoc, Option.elim_none]
    rfl
  | some text =>
    have h := Derives.padded isBlank_empty (.obj (Derives.addSpacedField isBlank_newline
      (k := "traceEvents") (by decide) hevents (Derives.addSpacedField isBlank_newline
        (k := "systemTraceEvents") (by decide) (.str (p.quotes text)) hend))) isBlank_newline
    rw [Json.Reads, SampleJson.document, hsystem]
    refine h.congr ?_
    rw [← String.toList_inj]
    simp only [String.toList_append, List.append_assoc, Option.elim_some]
    rfl

end

namespace TraceConverter
variable {p : Printer} {w : World} {c : TraceConverter} {sampleEntries : List ThreadTrace}
  {ftraceText : String}

/-- A panic on a line of ftrace leaves the beginning of a file. -/
theorem text_of_rawFtrace_none (hdry : c.args.dry = false) (h : c.rawFtrace ftraceText = none) :
    (c.printSampleToJson p w sampleEntries ftraceText).text = "\x7b\n\"traceEvents\": [\n" := by
  have hraw : { c with firstEventInJson := true }.rawFtrace ftraceText = none := h
  simp only [printSampleToJson, hdry, hraw, unwrap_none_bind, write_bind]
  rfl

theorem text_printSampleToJson {raw shifted : List FtraceEvent} (hdry : c.args.dry = false)
    (hraw : c.rawFtrace ftraceText = some raw)
    (hshifted : (c.started sampleEntries raw).shiftedFtrace ftraceText raw = some shifted) :
    (c.printSampleToJson p w sampleEntries ftraceText).text = "\x7b\n\"traceEvents\": [\n" ++
      (printDecoded p w (c.started sampleEntries raw) (c.thresholds sampleEntries raw).1 sampleEntries
        (shifted.filter fun e => (c.thresholds sampleEntries raw).1 ≤ e.timestamp)).text := by
  have hraw' : { c with firstEventInJson := true }.rawFtrace ftraceText = some raw := hraw
  simp only [printSampleToJson, hdry, hraw', unwrap_some_bind, write_bind]
  change _ ++ (unwrap ((c.started sampleEntries raw).shiftedFtrace ftraceText raw) >>= _).text = _
  rw [hshifted, unwrap_some_bind]
  rfl

/-- The lookups and calls of a sample are those with which it is written. -/
theorem decodeThreads_of_started (raw : List FtraceEvent) :
    (c.started sampleEntries raw).decodeThreads w (c.thresholds sampleEntries raw).1
      (c.started sampleEntries raw).lookup sampleEntries =
        (c.sampleLookup w sampleEntries raw, c.sampleCalls w sampleEntries raw) :=
  decodeThreads_congr w (c := c) (d := c.started sampleEntries raw) rfl _ _ _

/-- The events and what follows them. -/
theorem text_printDecoded {raw : List FtraceEvent} {ess : List (List JsonEvent)}
    {c' : TraceConverter} {funcset : List SymInfo} {ftraceEvents : List FtraceEvent}
    (hcompleted : (c.sampleLookup w sampleEntries raw).procaddr2sym.panicked = false)
    (h : writeThreads w (c.decoded w sampleEntries raw, [])
      (sampleEntries.zip (c.sampleCalls w sampleEntries raw)) = some ((c', funcset), ess))
    (hdry : c'.args.dry = false) :
    (printDecoded p w (c.started sampleEntries raw) (c.thresholds sampleEntries raw).1 sampleEntries
      ftraceEvents).text = p.events true ess.flatten ++ p.finish c' funcset ftraceEvents := by
  have hprints := @prints_writeThreads p w (sampleEntries.zip (c.sampleCalls w sampleEntries raw))
    (c.decoded w sampleEntries raw, [])
  rw [h] at hprints
  obtain ⟨es, htext, hes⟩ := hprints.text
  obtain rfl : ess.flatten = es := hes _ rfl
  have hlookup := Lookup.completed_eq_some.2 ⟨hcompleted, rfl⟩
  unfold printDecoded
  rw [decodeThreads_of_started]
  dsimp only
  rw [hlookup]
  dsimp only
  refine (text_bind_some hprints.result).trans ?_
  rw [htext]
  simp [flatten, hdry, decoded, started]

/-- A lookup that panics leaves a file that ends among the events. -/
theorem text_printDecoded_panic {raw ftraceEvents : List FtraceEvent}
    (hpanic : (c.sampleLookup w sampleEntries raw).procaddr2sym.panicked = true) :
    ∃ es, (printDecoded p w (c.started sampleEntries raw) (c.thresholds sampleEntries raw).1
      sampleEntries ftraceEvents).text = p.events true es := by
  obtain ⟨es, htext, -⟩ := (@prints_writeThreads p w (threadsBeforePanic w (c.started sampleEntries raw)
    (c.thresholds sampleEntries raw).1 (c.started sampleEntries raw).lookup sampleEntries)
    (c.started sampleEntries raw, [])).text
  have hlookup : (c.sampleLookup w sampleEntries raw).completed = none := if_pos hpanic
  refine ⟨es, ?_⟩
  unfold printDecoded
  rw [decodeThreads_of_started]
  dsimp only
  rw [hlookup]
  dsimp only
  cases hresult : (printThreads p w (c.started sampleEntries raw, [])
      (threadsBeforePanic w (c.started sampleEntries raw) (c.thresholds sampleEntries raw).1
        (c.started sampleEntries raw).lookup sampleEntries)).result with
  | none => exact (text_bind_none hresult).trans htext
  | some r =>
    refine (text_bind_some hresult).trans ?_
    rw [htext, text_unwrap, String.append_empty]
    rfl

/-- In the middle of the events two brackets are open. -/
theorem scan_events (es : List JsonEvent) (n : ℤ) :
    scan (.outside, n) (p.events true es) = (.outside, n) := by
  cases es with
  | nil => rfl
  | cons e es => exact scan_of_derives (derives_events p es e isBlank_empty) n

/-- The pieces of a file, cut in two ways. -/
theorem layout (events system files functions : String) :
    "\x7b\n\"traceEvents\": [" ++ ("\n" ++ events) ++ "],\n" ++ system ++
      "\"viztracer_metadata\": " ++ ("\x7b\n  \"version\": \"0.16.3\",\n  \"overflow\": false,\n" ++
      "  \"producer\": \"funtrace2viz\"\n\x7d") ++ ",\n\"file_info\": \x7b\n\"files\": \x7b" ++
      ("\n" ++ files) ++ "\x7d,\n\"functions\": \x7b" ++ ("\n" ++ functions) ++ "\x7d\x7d\x7d\n" =
    "\x7b\n\"traceEvents\": [\n" ++ (events ++ ("],\n" ++ system ++
      "\"viztracer_metadata\": \x7b\n  \"version\": \"0.16.3\",\n  \"overflow\": false,\n" ++
      "  \"producer\": \"funtrace2viz\"\n\x7d,\n\"file_info\": \x7b\n\"files\": \x7b\n" ++ files ++
      "\x7d,\n\"functions\": \x7b\n" ++ functions ++ "\x7d\x7d\x7d\n")) := by
  have hstart : "\x7b\n\"traceEvents\": [\n" = "\x7b\n\"traceEvents\": [" ++ "\n" := rfl
  have hversion : "\"viztracer_metadata\": \x7b\n  \"version\": \"0.16.3\",\n  \"overflow\": false,\n" =
      "\"viztracer_metadata\": " ++ "\x7b\n  \"version\": \"0.16.3\",\n  \"overflow\": false,\n" := rfl
  have hproducer : "  \"producer\": \"funtrace2viz\"\n\x7d,\n\"file_info\": \x7b\n\"files\": \x7b\n" =
      "  \"producer\": \"funtrace2viz\"\n\x7d" ++ (",\n\"file_info\": \x7b\n\"files\": \x7b" ++ "\n") := rfl
  have hfunctions : "\x7d,\n\"functions\": \x7b\n" = "\x7d,\n\"functions\": \x7b" ++ "\n" := rfl
  rw [hstart, hversion, hproducer, hfunctions]
  simp only [String.append_assoc]

/-- The sample that a file stands for; functions and source files are in the order in which the
    sets are iterated. -/
def writtenSample (p : Printer) (c : TraceConverter) (funcset : List SymInfo)
    (ftraceEvents : List FtraceEvent) (ess : List (List JsonEvent)) : SampleJson where
  events := ess
  systemTraceEvents :=
    if ftraceEvents.isEmpty then none
    else some ("# tracer: nop\n" ++ String.join (ftraceEvents.map (·.line ++ "\n")))
  files := cachedFiles c.sourceCache (p.iterFiles ((funcset.map (·.file)).dedup))
  functions := functionLines c.args.executableFileInfo (p.iterSyms funcset)

theorem closed_writtenSample {funcset : List SymInfo} {ftraceEvents : List FtraceEvent}
    {ess : List (List JsonEvent)} (hnamed : Named ess.flatten) (h : Listed (c, funcset) ess.flatten) :
    (c.writtenSample p funcset ftraceEvents ess).Closed where
  named := hnamed
  functions := by
    intro tid ts dur name pid hmem
    obtain ⟨sym, hsym, hname⟩ := h.names tid ts dur name pid hmem
    rw [← hname]
    exact ⟨_, _, List.mem_map.2 ⟨sym, (p.perm_iterSyms funcset).mem_iff.2 hsym, rfl⟩⟩
  files := by
    intro f hf
    obtain ⟨sym, hsym, rfl⟩ := List.mem_map.1 hf
    have hsym := (p.perm_iterSyms funcset).mem_iff.1 hsym
    obtain ⟨code, hcode⟩ := Option.isSome_iff_exists.1 (h.cached sym hsym)
    refine ⟨code, List.mem_filterMap.2 ⟨sym.file, ?_, by rw [hcode]; rfl⟩⟩
    rw [(p.perm_iterFiles _).mem_iff, List.mem_dedup]
    exact List.mem_map_of_mem hsym

theorem reads_writtenSample {funcset : List SymInfo} {ftraceEvents : List FtraceEvent}
    {ess : List (List JsonEvent)} (h : Listed (c, funcset) ess.flatten) :
    Json.Reads ("\x7b\n\"traceEvents\": [\n" ++
      (p.events true ess.flatten ++ p.finish c funcset ftraceEvents))
      (c.writtenSample p funcset ftraceEvents ess).document := by
  have hcached : ∀ file ∈ p.iterFiles ((funcset.map (·.file)).dedup), (c.sourceCache file).isSome := by
    intro file hfile
    rw [(p.perm_iterFiles _).mem_iff, List.mem_dedup] at hfile
    obtain ⟨sym, hsym, rfl⟩ := List.mem_map.1 hfile
    exact h.cached sym hsym
  have hreads := reads_document p (c.writtenSample p funcset ftraceEvents ess) derives_metadata
    (derives_traceEvents p ess.flatten) (derives_files p hcached) (derives_functions p _ _)
  have hsystem : p.systemTrace ftraceEvents =
      (c.writtenSample p funcset ftraceEvents ess).systemTraceEvents.elim "" fun text =>
        "\"systemTraceEvents\": " ++ p.string text ++ ",\n" := by
    unfold Printer.systemTrace writtenSample
    split_ifs <;> rfl
  unfold Printer.finish
  rw [hsystem]
  exact hreads.congr (layout _ _ _ _)

/-- **A sample that is written** without a panic gives a well-formed file. -/
theorem wellFormed_of_writeSampleToJson (hdry : c.args.dry = false)
    (h : (c.writeSampleToJson w sampleEntries ftraceText).isSome) :
    WellFormed (c.printSampleToJson p w sampleEntries ftraceText).text := by
  obtain ⟨⟨c', json⟩, h⟩ := Option.isSome_iff_exists.1 h
  obtain ⟨raw, shifted, funcset, ess, hraw, hshifted, hcompleted, hwrite, -⟩ :=
    exists_of_writeSampleToJson h
  obtain ⟨hnamed, hlisted, hargs⟩ := @writeThreads_events w _ _ _ _ [] hwrite hdry
    ⟨fun _ _ _ _ _ h => (by cases h), fun _ h => (by cases h)⟩
  have hdry' : c'.args.dry = false := (congrArg Cli.dry hargs).trans hdry
  rw [text_printSampleToJson hdry hraw hshifted, text_printDecoded hcompleted hwrite hdry']
  exact ⟨_, reads_writtenSample hlisted, closed_writtenSample hnamed hlisted⟩

/-- A lookup that panics leaves no JSON. -/
theorem not_wellFormed_of_panic {raw : List FtraceEvent} (hdry : c.args.dry = false)
    (hraw : c.rawFtrace ftraceText = some raw)
    (hpanic : (c.sampleLookup w sampleEntries raw).procaddr2sym.panicked = true) :
    ¬ WellFormed (c.printSampleToJson p w sampleEntries ftraceText).text := by
  rintro ⟨s, hreads, -⟩
  obtain ⟨shifted, hshifted, -⟩ := @timestamps_shiftedFtrace (c.started sampleEntries raw) _ _ hraw
  obtain ⟨es, htext⟩ := @text_printDecoded_panic p w c sampleEntries raw
    (shifted.filter fun e => (c.thresholds sampleEntries raw).1 ≤ e.timestamp) hpanic
  rw [text_printSampleToJson hdry hraw hshifted, htext] at hreads
  -- the object and the array of events are still open
  have hscan := scan_of_derives hreads 0
  have hopen : scan (.outside, 0) "\x7b\n\"traceEvents\": [\n" = (.outside, 2) := by decide
  rw [scan_append, hopen, scan_events] at hscan
  exact absurd hscan (by decide)

/-- **When the file is well-formed**: no line of ftrace has a wide blank before its first `": "`, and
    no entry that is decoded lies in a map whose file opens but cannot be parsed. -/
theorem wellFormed_iff (p : Printer) (w : World) (c : TraceConverter)
    (sampleEntries : List ThreadTrace) (ftraceText : String) (hdry : c.args.dry = false)
    (hfreq : c.cpuFreq ≠ 0) (hnames : ∀ t ∈ sampleEntries, t.threadId.nameStr.isSome)
    (hsources : ∀ file, (w.sourceText file).isSome) (hintact : c.Intact w) :
    WellFormed (c.printSampleToJson p w sampleEntries ftraceText).text ↔
      (∀ line ∈ linesOf ftraceText.toList, ¬ WideBlank line) ∧
        ∀ raw, c.rawFtrace ftraceText = some raw → c.ExecsRead w sampleEntries raw := by
  rw [← rawFtrace_isSome hfreq]
  constructor
  · intro hwell
    have hsome : (c.rawFtrace ftraceText).isSome := by
      by_contra hnone
      rw [Option.not_isSome_iff_eq_none] at hnone
      obtain ⟨s, hreads, -⟩ := hwell
      rw [text_of_rawFtrace_none hdry hnone] at hreads
      exact absurd (scan_of_derives hreads 0) (by decide)
    refine ⟨hsome, fun raw hraw => hintact.completed_iff.1 ?_⟩
    by_contra hpanic
    exact not_wellFormed_of_panic hdry hraw (by simpa using hpanic) hwell
  · rintro ⟨hsome, hexecs⟩
    obtain ⟨raw, hraw⟩ := Option.isSome_iff_exists.1 hsome
    refine wellFormed_of_writeSampleToJson hdry ?_
    rw [writeSampleToJson_isSome fun file _ => hsources file]
    refine ⟨raw, hraw, hintact.completed_iff.2 (hexecs raw hraw), fun x hx _ => ?_⟩
    exact ⟨hnames x.1 (List.of_mem_zip hx).1, fun _ call _ => ⟨fun _ => hfreq, hsources _⟩⟩

/-- A thread that called a function, and an event of ftrace. -/
def textDemo : TraceConverter := { new Cli.default with cpuFreq := 1000000000 }

theorem wellFormed_iff_demo : WellFormed (textDemo.printSampleToJson Printer.inOrder demoWorld
    (demoSnapshot demoName).sampleEntries "main-7 [000] ..... 1000: sched_switch: prev").text :=
  (wellFormed_iff Printer.inOrder demoWorld textDemo (demoSnapshot demoName).sampleEntries _ rfl
    (by decide) (by rw [sampleEntries_demoSnapshot]; decide) (fun _ => rfl)
    ⟨ProcAddr2Sym.current_new, rfl, fun _ h => by cases h⟩).2 ⟨fun line hline => by
      have hlines : linesOf "main-7 [000] ..... 1000: sched_switch: prev".toList =
          ["main-7 [000] ..... 1000: sched_switch: prev".toList] := by decide
      rw [hlines, List.mem_singleton] at hline
      subst hline
      decide, fun _ _ _ _ _ _ _ _ => rfl⟩

/-- The name of a thread has a no-break space and then a colon and a space. -/
theorem not_wellFormed : ¬ ∀ (p : Printer) (w : World) (c : TraceConverter)
    (sampleEntries : List ThreadTrace) (ftraceText : String), c.args.dry = false → c.cpuFreq ≠ 0 →
      (∀ t ∈ sampleEntries, t.threadId.nameStr.isSome) → (∀ file, (w.sourceText file).isSome) →
        c.Intact w → WellFormed (c.printSampleToJson p w sampleEntries ftraceText).text := by
  intro h
  have hdemo := h Printer.inOrder demoWorld textDemo (demoSnapshot demoName).sampleEntries
    "a\u00a0b: c-7 [000] ..... 1000: sched_switch: prev" rfl (by decide)
    (by rw [sampleEntries_demoSnapshot]; decide) (fun _ => rfl)
    ⟨ProcAddr2Sym.current_new, rfl, fun _ h => by cases h⟩
  obtain ⟨s, hreads, -⟩ := hdemo
  rw [text_of_rawFtrace_none rfl (by decide)] at hreads
  exact absurd (scan_of_derives hreads 0) (by decide)

end TraceConverter

end Funtrace
