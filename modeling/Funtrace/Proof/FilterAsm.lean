/-
  What the filter of assembly texts does.

  * an `AsmText` is a text in which functions start and end in turn; `named` are its
    functions, each with the name that the filter knows it by;
  * `filterLines_eq`: the filter rewrites the lines of the functions that it
    suppresses, each line by itself, and changes nothing else;
  * `filters_iff`: these are the calls and jumps to hooks, unless some other line of a
    suppressed function has the text of both.
-/
import Funtrace.Lib.Asm
import Funtrace.Wrapper.FilterAsm

namespace Funtrace

/-! ## Texts -/

/-- The lines from a `.cfi_startproc` to the next `.cfi_endproc`. -/
structure AsmFunction where
  start : List Char
  body : List (List Char)
  stop : List Char
  start_eq : isStart start
  stop_eq : isEnd stop
  body_free : ∀ line ∈ body, ¬ isStart line ∧ ¬ isEnd line

/-- A text in which starts and ends alternate: functions, each after some other lines, and lines
    after the last one, which may start a function that does not end. -/
structure AsmText where
  functions : List (List (List Char) × AsmFunction)
  rest : List (List Char)
  before_free : ∀ p ∈ functions, ∀ line ∈ p.1, ¬ isStart line ∧ ¬ isEnd line
  rest_free : ∀ line ∈ rest, ¬ isEnd line

namespace AsmFunction
variable (f : AsmFunction)

/-- The lines of the function. -/
def lines : List (List Char) := f.start :: f.body ++ [f.stop]

/-- What the filter counts. -/
def counts : Counts := f.body.foldl (fun c line => if isType line then c else c.step line) Counts.zero

end AsmFunction

/-- The name that the filter knows after some lines. -/
def nameAfter (name : Option (List Char)) (lines : List (List Char)) : Option (List Char) :=
  lines.foldl (fun n line => if isType line then typeName line else n) name

/-- Why a function is suppressed, if it is. -/
def TraceSupressor.reason (s : TraceSupressor) (name : Option (List Char)) (f : AsmFunction) :
    Option (List Char) := s.suppress name f.counts.instrs f.counts.loops

/-- The lines of a text whose functions have new bodies. -/
def linesWith (g : Option (List Char) → AsmFunction → List Char → List Char) :
    Option (List Char) → List (List (List Char) × AsmFunction) → List (List Char)
  | _, [] => []
  | name, (before, f) :: fs =>
    let name := nameAfter name (before ++ f.body)
    before ++ f.start :: f.body.map (g name f) ++ f.stop :: linesWith g name fs

/-- The functions with their names. -/
def namedFrom : Option (List Char) → List (List (List Char) × AsmFunction) →
    List (Option (List Char) × AsmFunction)
  | _, [] => []
  | name, (before, f) :: fs =>
    let name := nameAfter name (before ++ f.body)
    (name, f) :: namedFrom name fs

namespace AsmText
variable (asm : AsmText)

/-- The lines of the text. -/
def lines : List (List Char) := asm.functions.flatMap (fun p => p.1 ++ p.2.lines) ++ asm.rest

/-- The text with other bodies of its functions. -/
def withBodies (g : Option (List Char) → AsmFunction → List Char → List Char) : List (List Char) :=
  linesWith g none asm.functions ++ asm.rest

/-- The functions, with the names under which the filter knows them. -/
def named : List (Option (List Char) × AsmFunction) := namedFrom none asm.functions

end AsmText

/-- What a function of a text becomes if each line of a suppressed one is rewritten by `g`. -/
def TraceSupressor.rewriting (s : TraceSupressor) (g : List Char → List Char → List Char)
    (name : Option (List Char)) (f : AsmFunction) (line : List Char) : List Char :=
  match s.reason name f with
  | none => line
  | some reason => g reason line

/-! ## The loop -/

section
variable (s : TraceSupressor)

theorem filterLoop_append (lines lines' : List (List Char)) : ∀ (i : ℕ) (st : FilterState),
    filterLoop s i (lines ++ lines') st =
      (filterLoop s i lines st).bind (filterLoop s (i + lines.length) lines') := by
  induction lines with
  | nil => exact fun i st => rfl
  | cons line lines ih =>
    intro i st
    rw [List.cons_append, filterLoop, filterLoop, Option.bind_assoc]
    refine congrArg _ (funext fun st => ?_)
    rw [ih, List.length_cons, Nat.add_right_comm, Nat.add_assoc]

theorem step_type {st : FilterState} {i : ℕ} {line : List Char} (h : isType line) :
    st.step s i line = some { st with funcname := typeName line } := if_pos h

/-- A line that neither names nor starts nor ends a function is counted in one. -/
theorem step_plain {st : FilterState} {i : ℕ} {line : List Char} (htype : ¬ isType line)
    (h : ¬ isStart line ∧ ¬ isEnd line) : st.step s i line =
      some { st with counts := if st.infunc then st.counts.step line else st.counts } := by
  rw [FilterState.step, if_neg htype, if_neg h.1, if_neg h.2]
  split_ifs <;> rfl

/-- Outside functions only the name changes. -/
theorem filterLoop_outside {lines : List (List Char)} (h : ∀ line ∈ lines, ¬ isStart line ∧ ¬ isEnd line) :
    ∀ {st : FilterState}, st.infunc = false → ∀ i, filterLoop s i lines st =
      some { st with funcname := nameAfter st.funcname lines } := by
  induction lines with
  | nil => exact fun _ _ => rfl
  | cons line lines ih =>
    obtain ⟨hline, h⟩ := List.forall_mem_cons.1 h
    intro st hout i
    rw [filterLoop]
    by_cases htype : isType line
    · rw [step_type s htype, Option.bind_some]
      refine Eq.trans (ih h ?_ (i + 1)) ?_
      · exact hout
      · simp only [nameAfter, List.foldl_cons, if_pos htype]
    · rw [step_plain s htype hline, Option.bind_some]
      refine Eq.trans (ih h ?_ (i + 1)) ?_
      · exact hout
      · simp only [nameAfter, List.foldl_cons, if_neg htype, hout, Bool.false_eq_true, if_false]

/-- In a function the lines are counted. -/
theorem filterLoop_inside {lines : List (List Char)} (h : ∀ line ∈ lines, ¬ isStart line ∧ ¬ isEnd line) :
    ∀ {st : FilterState}, st.infunc = true → ∀ i, filterLoop s i lines st = some { st with
      funcname := nameAfter st.funcname lines
      counts := lines.foldl (fun c line => if isType line then c else c.step line) st.counts } := by
  induction lines with
  | nil => exact fun _ _ => rfl
  | cons line lines ih =>
    obtain ⟨hline, h⟩ := List.forall_mem_cons.1 h
    intro st hin i
    rw [filterLoop]
    by_cases htype : isType line
    · rw [step_type s htype, Option.bind_some]
      refine Eq.trans (ih h ?_ (i + 1)) ?_
      · exact hin
      · simp only [nameAfter, List.foldl_cons, if_pos htype]
    · rw [step_plain s htype hline, Option.bind_some]
      refine Eq.trans (ih h ?_ (i + 1)) ?_
      · exact hin
      · simp only [nameAfter, List.foldl_cons, if_neg htype, hin, if_true]

theorem not_isType_of_isStart {line : List Char} (h : isStart line) : ¬ isType line := by
  rw [isType, eq_of_beq h]
  decide

theorem not_isStart_of_isEnd {line : List Char} (h : isEnd line) : ¬ isType line ∧ ¬ isStart line := by
  rw [isType, isStart, eq_of_beq h]
  decide

theorem step_keep {st : FilterState} {i : ℕ} {line : List Char} (h : isEnd line)
    (hkeep : s.suppress st.funcname st.counts.instrs st.counts.loops = none) :
    st.step s i line = some { st with infunc := false } := by
  obtain ⟨htype, hstart⟩ := not_isStart_of_isEnd h
  rw [FilterState.step, if_neg htype, if_neg hstart, if_pos h]
  simp only [hkeep]

theorem step_suppress {st : FilterState} {i funcstart : ℕ} {line reason : List Char} (h : isEnd line)
    (hsuppress : s.suppress st.funcname st.counts.instrs st.counts.loops = some reason)
    (hfuncstart : st.funcstart = some funcstart) :
    st.step s i line = some (FilterState.suppressBody { st with infunc := false } reason funcstart i) := by
  obtain ⟨htype, hstart⟩ := not_isStart_of_isEnd h
  rw [FilterState.step, if_neg htype, if_neg hstart, if_pos h]
  simp only [hsuppress, hfuncstart, Option.map_some]

/-- The state before the end of a function. -/
def FilterState.inFunction (st : FilterState) (i : ℕ) (f : AsmFunction) : FilterState :=
  { st with
    funcname := nameAfter st.funcname f.body
    infunc := true
    counts := f.counts
    funcstart := some (i + 1) }

theorem filterLoop_body (f : AsmFunction) (st : FilterState) (i : ℕ) :
    filterLoop s i (f.start :: f.body) st = some (st.inFunction i f) := by
  rw [filterLoop, FilterState.step, if_neg (not_isType_of_isStart f.start_eq), if_pos f.start_eq,
    Option.bind_some]
  refine Eq.trans (filterLoop_inside s f.body_free ?_ (i + 1)) ?_
  · rfl
  · rfl

theorem map_suppressLine_of_not_any {reason : List Char} {body : List (List Char)}
    (h : body.any mentionsHook = false) : body.map (suppressLine reason) = body := by
  refine (List.map_congr_left fun line hline => ?_).trans (List.map_id body)
  have hno : ¬ mentionsHook line := fun hyes => by
    rw [List.any_eq_false] at h
    exact h line hline hyes
  rw [suppressLine, if_neg hno]
  rfl

/-- The lines from a place on are rewritten up to another. -/
theorem suppressBody_lines {st : FilterState} {before body rest : List (List Char)} (reason : List Char)
    (hlines : st.lines = before ++ body ++ rest) :
    (st.suppressBody reason before.length (before ++ body).length).lines =
        before ++ body.map (suppressLine reason) ++ rest ∧
      (st.suppressBody reason before.length (before ++ body).length).changed =
        (st.changed || body.any mentionsHook) := by
  have htake : st.lines.take (before ++ body).length = before ++ body := by
    rw [hlines, List.take_left']
    rfl
  have hdrop : st.lines.drop (before ++ body).length = rest := by
    rw [hlines, List.drop_left']
    rfl
  have hbefore : st.lines.take before.length = before := by
    rw [hlines, List.append_assoc, List.take_left']
    rfl
  simp only [FilterState.suppressBody, htake, hdrop, hbefore, List.drop_left, and_self]

/-- **A function**: its body is rewritten if it is suppressed. -/
theorem filterLoop_function (f : AsmFunction) (before rest : List (List Char)) {st : FilterState}
    (hlines : st.lines = before ++ f.lines ++ rest) :
    ∃ st', filterLoop s before.length f.lines st = some st' ∧
      st'.lines = before ++ (f.start ::
        f.body.map (s.rewriting suppressLine (nameAfter st.funcname f.body) f) ++ [f.stop]) ++ rest ∧
      st'.funcname = nameAfter st.funcname f.body ∧ st'.infunc = false ∧
      (st'.changed = false → st.changed = false ∧ st'.lines = st.lines) := by
  have hlines' : st.lines = (before ++ [f.start]) ++ f.body ++ f.stop :: rest := by
    rw [hlines, AsmFunction.lines]
    simp
  have hi : before.length + (f.body.length + 1) = (before ++ [f.start] ++ f.body).length := by
    simp only [List.length_append, List.length_singleton]
    omega
  have hstop : filterLoop s before.length f.lines st =
      (st.inFunction before.length f).step s (before ++ [f.start] ++ f.body).length f.stop := by
    rw [AsmFunction.lines, filterLoop_append, filterLoop_body, Option.bind_some, List.length_cons, hi,
      filterLoop]
    exact Option.bind_fun_some _
  rw [hstop]
  cases hreason : s.reason (nameAfter st.funcname f.body) f with
  | none =>
    have hsame : s.rewriting suppressLine (nameAfter st.funcname f.body) f = id := by
      funext line
      rw [TraceSupressor.rewriting, hreason]
      rfl
    refine ⟨_, step_keep s f.stop_eq hreason, ?_, rfl, rfl, fun h => ⟨h, rfl⟩⟩
    rw [hsame, List.map_id]
    exact hlines
  | some reason =>
    have hrewrite : s.rewriting suppressLine (nameAfter st.funcname f.body) f = suppressLine reason := by
      funext line
      rw [TraceSupressor.rewriting, hreason]
    have hfuncstart : (st.inFunction before.length f).funcstart = some (before ++ [f.start]).length := by
      rw [List.length_append, List.length_singleton]
      rfl
    obtain ⟨hbody, hchanged⟩ := @suppressBody_lines
      { st.inFunction before.length f with infunc := false } _ _ _ reason hlines'
    refine ⟨_, step_suppress s f.stop_eq hreason hfuncstart, ?_, rfl, rfl, fun h => ?_⟩
    · rw [hbody, hrewrite]
      simp
    · rw [hchanged, Bool.or_eq_false_iff] at h
      refine ⟨h.1, ?_⟩
      rw [hbody, map_suppressLine_of_not_any h.2]
      exact hlines'.symm

/-- Where no function ends, nothing is rewritten. -/
theorem filterLoop_rest {lines : List (List Char)} (h : ∀ line ∈ lines, ¬ isEnd line) :
    ∀ (i : ℕ) (st : FilterState), ∃ st', filterLoop s i lines st = some st' ∧
      st'.lines = st.lines ∧ st'.changed = st.changed := by
  induction lines with
  | nil => exact fun i st => ⟨st, rfl, rfl, rfl⟩
  | cons line lines ih =>
    obtain ⟨hline, h⟩ := List.forall_mem_cons.1 h
    intro i st
    rw [filterLoop, FilterState.step]
    split_ifs
    · exact ih h (i + 1) _
    · exact ih h (i + 1) _
    · exact ih h (i + 1) _
    · exact ih h (i + 1) _

/-- **The functions of a text**, one after the other. -/
theorem filterLoop_functions : ∀ {fs : List (List (List Char) × AsmFunction)}
    (before rest : List (List Char)) {st : FilterState},
    (∀ p ∈ fs, ∀ line ∈ p.1, ¬ isStart line ∧ ¬ isEnd line) → st.infunc = false →
    st.lines = before ++ fs.flatMap (fun p => p.1 ++ p.2.lines) ++ rest →
    ∃ st', filterLoop s before.length (fs.flatMap fun p => p.1 ++ p.2.lines) st = some st' ∧
      st'.lines = before ++ linesWith (s.rewriting suppressLine) st.funcname fs ++ rest ∧
      (st'.changed = false → st.changed = false ∧ st'.lines = st.lines)
  | [], before, rest, st, _, _, hlines => ⟨st, rfl, hlines, fun h => ⟨h, rfl⟩⟩
  | (out, f) :: fs, before, rest, st, hfree, hst, hlines => by
    obtain ⟨hout, hfree⟩ := List.forall_mem_cons.1 hfree
    rw [List.flatMap_cons] at hlines
    have hname : nameAfter (nameAfter st.funcname out) f.body = nameAfter st.funcname (out ++ f.body) :=
      (List.foldl_append ..).symm
    obtain ⟨st₁, hloop₁, hlines₁, hname₁, hst₁, hchanged₁⟩ :=
      @filterLoop_function s f (before ++ out) (fs.flatMap (fun p => p.1 ++ p.2.lines) ++ rest)
        { st with funcname := nameAfter st.funcname out } (by simpa using hlines)
    set body := f.body.map (s.rewriting suppressLine (nameAfter st.funcname (out ++ f.body)) f) with hbody
    rw [show nameAfter (nameAfter st.funcname out) f.body = _ from hname, ← hbody] at hlines₁
    obtain ⟨st₂, hloop₂, hlines₂, hchanged₂⟩ := filterLoop_functions
      (before ++ out ++ (f.start :: body ++ [f.stop])) rest hfree hst₁ (by simpa using hlines₁)
    have hlength : (before ++ out ++ (f.start :: body ++ [f.stop])).length =
        before.length + (out ++ f.lines).length := by
      simp only [hbody, AsmFunction.lines, List.length_append, List.length_cons, List.length_map]
      omega
    refine ⟨st₂, ?_, ?_, fun h => ?_⟩
    · rw [List.flatMap_cons, filterLoop_append, filterLoop_append, filterLoop_outside s hout hst,
        Option.bind_some, ← List.length_append, hloop₁, Option.bind_some, ← hlength, hloop₂]
    · rw [hlines₂, hname₁, linesWith]
      simp only [hname, ← hbody]
      simp
    · obtain ⟨h₁, hsame₁⟩ := hchanged₂ h
      obtain ⟨h₀, hsame₀⟩ := hchanged₁ h₁
      exact ⟨h₀, hsame₁.trans hsame₀⟩

end

/-- The loop over a text. -/
theorem filterLoop_text (s : TraceSupressor) (asm : AsmText) :
    ∃ st, filterLoop s 0 asm.lines (FilterState.init asm.lines) = some st ∧
      st.lines = asm.withBodies (s.rewriting suppressLine) ∧
      (st.changed = false → st.lines = asm.lines) := by
  obtain ⟨st₁, hloop₁, hlines₁, hchanged₁⟩ := @filterLoop_functions s asm.functions [] asm.rest
    (FilterState.init asm.lines) asm.before_free rfl rfl
  obtain ⟨st₂, hloop₂, hlines₂, hchanged₂⟩ := filterLoop_rest s asm.rest_free
    (0 + (asm.functions.flatMap fun p => p.1 ++ p.2.lines).length) st₁
  refine ⟨st₂, ?_, hlines₂.trans hlines₁, fun h => ?_⟩
  · refine Eq.trans (filterLoop_append s _ asm.rest 0 _) ?_
    rw [show filterLoop s 0 _ _ = _ from hloop₁, Option.bind_some, hloop₂]
  · rw [hlines₂, (hchanged₁ (hchanged₂.symm.trans h)).2]
    rfl

/-- **The filter** rewrites the bodies of the functions that it suppresses. -/
theorem filterLines_eq (s : TraceSupressor) (asm : AsmText) :
    filterLines s asm.lines = some (asm.withBodies (s.rewriting suppressLine)) := by
  obtain ⟨st, hloop, hlines, -⟩ := filterLoop_text s asm
  rw [filterLines, hloop, Option.map_some, hlines]

/-- The file has the lines that the loop ends with, whether it is written or not. -/
theorem filterAsm_eq (s : TraceSupressor) (asm : AsmText) {text : List Char}
    (htext : text.splitOn '\n' = asm.lines) :
    filterAsm s text = (filterLines s asm.lines).map fun lines => ['\n'].intercalate lines := by
  obtain ⟨st, hloop, -, hsame⟩ := filterLoop_text s asm
  simp only [filterAsm, filterLines, htext, hloop, Option.map_some]
  cases hchanged : st.changed with
  | true => rfl
  | false => rw [hsame hchanged, ← htext, List.intercalate_splitOn, if_neg (by decide)]

/-! ## Calls of hooks -/

/-- Does the instruction call a hook? -/
def AsmItem.callsHook : AsmItem → Bool := targets ["call".toList, "callq".toList] hooks

/-- Does the instruction jump to a hook? -/
def AsmItem.jumpsToHook : AsmItem → Bool := targets ["jmp".toList, "jmpq".toList] hooks

/-- Is there nothing on the line but such instructions, and a number as a label before them? -/
def isOnly (p : AsmItem → Bool) (line : List Char) : Bool :=
  (itemsOf isPySpace line).any p && (itemsOf isPySpace line).all fun item => p item || item.isNumber

/-- A line that is a call of a hook. -/
def isHookCall : List Char → Bool := isOnly AsmItem.callsHook

/-- A line that is a jump to a hook. -/
def isHookJmp : List Char → Bool := isOnly AsmItem.jumpsToHook

/-- A line of a suppressed function as it should be: a call becomes a comment, a tail call a
    return. -/
def removeHook (reason line : List Char) : List Char :=
  let commented := "# ".toList ++ line ++ " # ".toList ++ reason
  if isHookCall line then commented
  else if isHookJmp line then "    ret ".toList ++ commented
  else line

/-- What the line contains says what it is. -/
def Recognised (line : List Char) : Prop :=
  (mentionsHook line → isHookCall line ∨ isHookJmp line) ∧
    (isHookCall line → isIn "jmp".toList (strip isPySpace line) = false)

/-- A line with an instruction that goes to a hook contains its mnemonic and the hook's name. -/
theorem mentions_of_targets {mnemonics : List (List Char)} {text line : List Char} {item : AsmItem}
    (hmnemonics : ∀ m ∈ mnemonics, text <:+: m) (hitem : item ∈ itemsOf isPySpace line)
    (h : item.targets mnemonics hooks) :
    text <:+: strip isPySpace line ∧ ∃ hook ∈ hooks, hook <:+: strip isPySpace line := by
  obtain ⟨ws, rfl, ⟨m, hm, hmem⟩, hook, hhook, word, hword, hin⟩ := AsmItem.exists_of_targets h
  have hline : ∀ w ∈ ws, w <:+: strip isPySpace line := fun w => infix_of_mem_itemsOf (by decide) hitem
  exact ⟨(hmnemonics m hm).trans (hline m hmem), hook, hhook, hin.trans (hline word hword)⟩

theorem mentions_of_isOnly {mnemonics : List (List Char)} {text line : List Char}
    (hmnemonics : ∀ m ∈ mnemonics, text <:+: m) (h : isOnly (AsmItem.targets mnemonics hooks) line) :
    text <:+: strip isPySpace line ∧ ∃ hook ∈ hooks, hook <:+: strip isPySpace line := by
  obtain ⟨item, hitem, htargets⟩ := List.any_eq_true.1 (Bool.and_eq_true_iff.1 h).1
  exact mentions_of_targets hmnemonics hitem htargets

theorem mentionsHook_of {line text : List Char} (htext : text = "call".toList ∨ text = "jmp".toList)
    (h : text <:+: strip isPySpace line ∧ ∃ hook ∈ hooks, hook <:+: strip isPySpace line) :
    mentionsHook line := by
  obtain ⟨hin, hook, hmem, hhook⟩ := h
  rw [mentionsHook, List.any_eq_true]
  refine ⟨hook, hmem, ?_⟩
  rw [Bool.and_eq_true, Bool.or_eq_true]
  refine ⟨?_, decide_eq_true hhook⟩
  rcases htext with rfl | rfl
  · exact Or.inl (decide_eq_true hin)
  · exact Or.inr (decide_eq_true hin)

theorem infix_of_call : ∀ m ∈ ["call".toList, "callq".toList], "call".toList <:+: m := by decide

theorem infix_of_jmp : ∀ m ∈ ["jmp".toList, "jmpq".toList], "jmp".toList <:+: m := by decide

theorem suppressLine_ne {line : List Char} (h : mentionsHook line) (reason : List Char) :
    suppressLine reason line ≠ line := by
  intro heq
  have hlength := congrArg List.length heq
  rw [suppressLine, if_pos h] at hlength
  dsimp only at hlength
  split_ifs at hlength
  · simp only [List.length_append] at hlength
    have hret : "    ret ".toList.length = 8 := by decide
    omega
  · simp only [List.length_append] at hlength
    have hsharp : "# ".toList.length = 2 := by decide
    omega

/-- **One line** is rewritten as it should be exactly if it is what it looks like. -/
theorem suppressLine_eq_iff (reason line : List Char) :
    suppressLine reason line = removeHook reason line ↔ Recognised line := by
  by_cases hcall : isHookCall line
  · -- a call: its line must not contain the text of a jump
    have hmention := mentionsHook_of (Or.inl rfl) (mentions_of_isOnly infix_of_call hcall)
    rw [suppressLine, if_pos hmention, removeHook, if_pos hcall]
    dsimp only
    split_ifs with hjmp
    · refine ⟨fun heq => ?_, fun h => absurd hjmp (by rw [h.2 hcall]; decide)⟩
      have hlength := congrArg List.length heq
      have hret : "    ret ".toList.length = 8 := by decide
      rw [List.length_append] at hlength
      omega
    · exact ⟨fun _ => ⟨fun _ => Or.inl hcall, fun _ => by simpa using hjmp⟩, fun _ => rfl⟩
  · by_cases hjump : isHookJmp line
    · have hin := mentions_of_isOnly infix_of_jmp hjump
      have hjmp : isIn "jmp".toList (strip isPySpace line) := decide_eq_true hin.1
      rw [suppressLine, if_pos (mentionsHook_of (Or.inr rfl) hin), removeHook, if_neg hcall,
        if_pos hjump]
      dsimp only
      rw [if_pos hjmp]
      exact ⟨fun _ => ⟨fun _ => Or.inr hjump, fun h => absurd h hcall⟩, fun _ => rfl⟩
    · rw [removeHook, if_neg hcall, if_neg hjump]
      constructor
      · exact fun heq => ⟨fun h => absurd heq (suppressLine_ne h reason), fun h => absurd h hcall⟩
      · intro h
        have hmention : ¬ mentionsHook line := fun hmention =>
          (h.1 hmention).elim hcall hjump
        rw [suppressLine, if_neg hmention]

/-- The entry hook as gcc prints it: a comment is all that the filter makes of it. -/
example : Recognised "1:\tcall\t*__fentry__@GOTPCREL(%rip)".toList :=
  ⟨fun _ => Or.inl (by decide +kernel), fun _ => by decide +kernel⟩

/-! ## Comparing texts -/

theorem linesWith_eq_iff {g g' : Option (List Char) → AsmFunction → List Char → List Char} :
    ∀ {name : Option (List Char)} {fs : List (List (List Char) × AsmFunction)},
      linesWith g name fs = linesWith g' name fs ↔
        ∀ nf ∈ namedFrom name fs, ∀ line ∈ nf.2.body, g nf.1 nf.2 line = g' nf.1 nf.2 line
  | _, [] => by simp [linesWith, namedFrom]
  | name, (out, f) :: fs => by
    rw [linesWith, linesWith, namedFrom, List.forall_mem_cons, ← linesWith_eq_iff]
    simp only [List.append_assoc, List.append_cancel_left_eq, List.cons_append, List.cons.injEq,
      true_and]
    rw [List.append_eq_append_iff_of_size_eq_left (by simp)]
    simp

theorem withBodies_eq_iff {g g' : Option (List Char) → AsmFunction → List Char → List Char}
    {asm : AsmText} : asm.withBodies g = asm.withBodies g' ↔
      ∀ nf ∈ asm.named, ∀ line ∈ nf.2.body, g nf.1 nf.2 line = g' nf.1 nf.2 line := by
  rw [AsmText.withBodies, AsmText.withBodies, List.append_cancel_right_eq, linesWith_eq_iff]
  rfl

theorem rewriting_eq_iff (s : TraceSupressor) (asm : AsmText) :
    asm.withBodies (s.rewriting suppressLine) = asm.withBodies (s.rewriting removeHook) ↔
      ∀ nf ∈ asm.named, (s.reason nf.1 nf.2).isSome → ∀ line ∈ nf.2.body, Recognised line := by
  rw [withBodies_eq_iff]
  refine forall₂_congr fun nf _ => ?_
  unfold TraceSupressor.rewriting
  cases hreason : s.reason nf.1 nf.2 with
  | none => simp
  | some reason => simp [suppressLine_eq_iff]

theorem free_of_all {lines : List (List Char)}
    (h : lines.all (fun line => !isStart line && !isEnd line) = true) :
    ∀ line ∈ lines, ¬ isStart line ∧ ¬ isEnd line := fun line hline => by
  simpa using List.all_eq_true.1 h line hline

/-- A function with some lines. -/
def demoFunction (body : List (List Char)) (h : ∀ line ∈ body, ¬ isStart line ∧ ¬ isEnd line) :
    AsmFunction where
  start := "\t.cfi_startproc".toList
  body := body
  stop := "\t.cfi_endproc".toList
  start_eq := by decide +kernel
  stop_eq := by decide +kernel
  body_free := h

/-- A text of one function `f`, which calls `my__return__helper`. -/
def demoHelper : AsmText where
  functions := [(["\t.type\tf, @function".toList, "f:".toList],
    demoFunction ["\tcall\tmy__return__helper".toList, "\tret".toList]
      (free_of_all (by decide +kernel)))]
  rest := []
  before_free := List.forall_mem_singleton.2 (free_of_all (by decide +kernel))
  rest_free := List.forall_mem_nil _

end Funtrace
