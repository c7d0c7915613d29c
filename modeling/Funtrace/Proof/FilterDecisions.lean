/-
  Which functions the filter of assembly texts suppresses.

  The documentation excludes a function by the lists, or if it has few instructions and
  no loop.  The filter counts the indented lines that are no directives and no labels,
  and looks for the text of earlier labels in them.  So it misses an instruction that
  follows a label on its line, counts a comment, and takes a jump to `.L10` for one to
  `.L1`; `decides_iff` says when this matters.  The parts of a split function are
  decided about one by one (`together_iff`).
-/
import Funtrace.Lib.Text
import Funtrace.Proof.FilterAsm

namespace Funtrace

/-! ## Functions -/

/-- A line that the filter takes for an instruction. -/
def takenForInstr (line : List Char) : Bool := !isType line && (firstWord line).any (isInstr line)

/-- The label that the filter takes a line to define, if any. -/
def takenForLabel (line : List Char) : Option (List Char) :=
  if isType line then none
  else (firstWord line).bind fun t =>
    if ['.'].isPrefixOf t && [':'].isSuffixOf t then some t.dropLast else none

namespace AsmFunction
variable (f : AsmFunction)

/-- The labels and instructions of a function. -/
def items : List AsmItem := f.body.flatMap (itemsOf isPySpace)

/-- The number of its instructions. -/
def numInstrs : ℕ := f.items.countP AsmItem.isInstr

/-- Does an instruction refer to a label with a dot that is defined before it? -/
def HasLoop : Prop :=
  ∃ before item after, f.items = before ++ item :: after ∧
    ∃ label, .label label ∈ before ∧ ['.'] <+: label ∧ item.refersTo label

/-- The number of lines that the filter takes for instructions. -/
def numTaken : ℕ := f.body.countP takenForInstr

/-- Is the text of a label in a line that the filter takes for an instruction, and after one that
    it takes to define the label? -/
def MentionsLabel : Prop :=
  ∃ before line after, f.body = before ++ line :: after ∧ takenForInstr line ∧
    ∃ label ∈ before.filterMap takenForLabel, label <:+: strip isPySpace line

/-- Does the function look shorter than the threshold, and free of loops if these matter? -/
def LooksShort (s : TraceSupressor) : Prop :=
  f.numTaken < s.instrThresh ∧ (s.ignoreLoops ∨ ¬ f.MentionsLabel)

end AsmFunction

/-- What the documentation says of a function of some length. -/
def TraceSupressor.Excludes (s : TraceSupressor) (name : List Char) (numInstrs : ℕ) (loop : Prop) : Prop :=
  name ∉ s.doTrace ∧ (name ∈ s.noTrace ∨ (numInstrs < s.instrThresh ∧ (¬ loop ∨ s.ignoreLoops)))

/-- The filter, in any state outside functions, suppresses the function that comes next. -/
def TraceSupressor.Suppresses (s : TraceSupressor) (st : FilterState) (i : ℕ) (f : AsmFunction) : Prop :=
  ∃ st', filterLoop s i (f.start :: f.body) st = some st' ∧
    (s.suppress st'.funcname st'.counts.instrs st'.counts.loops).isSome

/-! ## Counting -/

theorem isSome_suppress (s : TraceSupressor) (name : List Char) (numInstr loops : ℕ) :
    (s.suppress (some name) numInstr loops).isSome ↔ s.Excludes name numInstr (loops ≠ 0) := by
  unfold TraceSupressor.suppress TraceSupressor.Excludes
  simp only [Option.any_some, decide_eq_true_eq]
  split_ifs <;> simp_all

/-- What is counted in a line, which may name a function. -/
def Counts.next (c : Counts) (line : List Char) : Counts := if isType line then c else c.step line

/-- **One line** is counted as what it is taken for. -/
theorem counts_next (line : List Char) (c : Counts) :
    (c.next line).instrs = c.instrs + (if takenForInstr line then 1 else 0) ∧
      (c.next line).labels = c.labels ++ (takenForLabel line).toList ∧
      ((c.next line).loops ≠ 0 ↔ c.loops ≠ 0 ∨
        takenForInstr line ∧ ∃ label ∈ c.labels, label <:+: strip isPySpace line) := by
  by_cases htype : isType line
  · simp [Counts.next, takenForInstr, takenForLabel, htype]
  cases hword : firstWord line with
  | none => simp [Counts.next, Counts.step, takenForInstr, takenForLabel, htype, hword]
  | some t =>
    have htaken : takenForInstr line = isInstr line t := by
      simp [takenForInstr, htype, hword]
    have hlabel : takenForLabel line =
        if ['.'].isPrefixOf t && [':'].isSuffixOf t then some t.dropLast else none := by
      simp [takenForLabel, htype, hword]
    rw [Counts.next, if_neg htype, Counts.step]
    simp only [hword, htaken, hlabel]
    by_cases hinstr : isInstr line t
    · -- no line is taken for both
      have hdot : ['.'].isPrefixOf t = false := by
        simp only [isInstr, Bool.and_eq_true, Bool.not_eq_true'] at hinstr
        exact hinstr.1.2
      rw [if_pos hinstr, if_pos hinstr, hdot, Bool.false_and, if_neg Bool.false_ne_true]
      refine ⟨rfl, (List.append_nil _).symm, ?_⟩
      simp only [List.any_eq_true, isIn, decide_eq_true_eq, hinstr, true_and]
      split_ifs with hin
      · simp [hin]
      · simp [hin]
    · rw [if_neg hinstr, if_neg hinstr]
      split_ifs <;> simp [hinstr]

/-- What is counted in some lines, after what was counted before. -/
theorem counts_foldl (lines : List (List Char)) :
    ∀ c : Counts, (lines.foldl Counts.next c).instrs = c.instrs + lines.countP takenForInstr ∧
      ((lines.foldl Counts.next c).loops ≠ 0 ↔ c.loops ≠ 0 ∨
        ∃ before line after, lines = before ++ line :: after ∧ takenForInstr line ∧
          ∃ label ∈ c.labels ++ before.filterMap takenForLabel, label <:+: strip isPySpace line) := by
  induction lines with
  | nil => intro c; simp
  | cons line lines ih =>
    intro c
    obtain ⟨hinstrs, hlabels, hloops⟩ := counts_next line c
    obtain ⟨ihinstrs, ihloops⟩ := ih (c.next line)
    have hcons (before : List (List Char)) : (c.next line).labels ++ before.filterMap takenForLabel =
        c.labels ++ (line :: before).filterMap takenForLabel := by
      rw [hlabels, List.append_assoc, List.filterMap_cons]
      cases takenForLabel line <;> rfl
    rw [List.foldl_cons]
    refine ⟨?_, ?_⟩
    · rw [ihinstrs, hinstrs, List.countP_cons]
      omega
    · rw [ihloops, hloops, exists_split_cons, or_assoc]
      simp only [hcons, List.filterMap_nil, List.append_nil]

/-- What the filter counts in a function. -/
theorem AsmFunction.counts_eq (f : AsmFunction) :
    f.counts.instrs = f.numTaken ∧ (f.counts.loops ≠ 0 ↔ f.MentionsLabel) := by
  obtain ⟨hinstrs, hloops⟩ := counts_foldl f.body Counts.zero
  refine ⟨hinstrs.trans (Nat.zero_add _), hloops.trans ?_⟩
  simp only [Counts.zero, ne_eq, not_true_eq_false, false_or, List.nil_append]
  rfl

/-- What the filter decides by the name and the lines of a function. -/
theorem isSome_reason (s : TraceSupressor) (name : List Char) (f : AsmFunction) :
    (s.reason (some name) f).isSome ↔
      name ∉ s.doTrace ∧ (name ∈ s.noTrace ∨ f.LooksShort s) := by
  obtain ⟨hinstrs, hloops⟩ := f.counts_eq
  rw [TraceSupressor.reason, isSome_suppress, hinstrs, TraceSupressor.Excludes, hloops,
    AsmFunction.LooksShort, or_comm (a := (s.ignoreLoops = true))]

theorem suppresses_iff {s : TraceSupressor} {st : FilterState} {f : AsmFunction} {name : List Char}
    (hname : nameAfter st.funcname f.body = some name) (i : ℕ) :
    s.Suppresses st i f ↔ name ∉ s.doTrace ∧ (name ∈ s.noTrace ∨ f.LooksShort s) := by
  rw [TraceSupressor.Suppresses, filterLoop_body, ← isSome_reason, TraceSupressor.reason]
  simp only [Option.some.injEq, exists_eq_left', FilterState.inFunction, hname]

instance (f : AsmFunction) : Decidable f.HasLoop :=
  have (before : List AsmItem) (item : AsmItem) :
      Decidable (∃ label, .label label ∈ before ∧ ['.'] <+: label ∧ item.refersTo label) :=
    decidable_of_iff ((before.any fun
      | .label label => ['.'].isPrefixOf label && item.refersTo label
      | .instr _ => false) = true) (by
        rw [List.any_eq_true]
        constructor
        · rintro ⟨_ | _, hmem, h⟩
          · rw [Bool.and_eq_true, List.isPrefixOf_iff_prefix] at h
            exact ⟨_, hmem, h⟩
          · cases h
        · rintro ⟨label, hmem, hdot, href⟩
          exact ⟨_, hmem, Bool.and_eq_true_iff.2 ⟨List.isPrefixOf_iff_prefix.2 hdot, href⟩⟩)
  decidableSplit _ f.items

instance (f : AsmFunction) : Decidable f.MentionsLabel :=
  have (before : List (List Char)) (line : List Char) : Decidable (takenForInstr line ∧
      ∃ label ∈ before.filterMap takenForLabel, label <:+: strip isPySpace line) :=
    decidable_of_iff ((takenForInstr line && (before.filterMap takenForLabel).any fun label =>
      isIn label (strip isPySpace line)) = true)
      (by simp only [Bool.and_eq_true, List.any_eq_true, isIn, decide_eq_true_eq])
  decidableSplit _ f.body

instance (f : AsmFunction) (s : TraceSupressor) : Decidable (f.LooksShort s) :=
  inferInstanceAs (Decidable (_ ∧ (_ ∨ _)))

/-- A function with a jump forward to `.L10` after the label `.L1`. -/
def demoBranch : AsmFunction :=
  demoFunction (["1:\tcall\t*__fentry__@GOTPCREL(%rip)", ".L1:", "\tje\t.L10", "\taddl\t$1, %eax",
    "\t# a comment", ".L10:", "\tret"].map String.toList) (free_of_all (by decide +kernel))

/-- Of its four instructions the first is not counted, but the comment is. -/
example : demoBranch.numInstrs = 4 ∧ demoBranch.numTaken = 4 := by decide +kernel

/-- A function of a text: the number of the first line of its body, its name and its lines. -/
structure Part where
  place : ℕ
  name : Option (List Char)
  function : AsmFunction

/-- The functions of a text of which `n` lines come first. -/
def partsFrom : ℕ → Option (List Char) → List (List (List Char) × AsmFunction) → List Part
  | _, _, [] => []
  | n, name, (out, f) :: fs =>
    let name := nameAfter name (out ++ f.body)
    ⟨n + out.length + 1, name, f⟩ :: partsFrom (n + out.length + f.lines.length) name fs

/-- The functions of a text, with their names and places. -/
def AsmText.parts (asm : AsmText) : List Part := partsFrom 0 none asm.functions

/-- Does a line have an instruction that goes to a hook? -/
def hasHook (line : List Char) : Bool :=
  (itemsOf isPySpace line).any fun item => item.callsHook || item.jumpsToHook

/-- The name of the cold part of a function. -/
def coldName (name : List Char) : List Char := name ++ ".cold".toList

/-- The text has two parts of the function `name`, both with calls of hooks. -/
structure AsmText.IsSplit (asm : AsmText) (name : List Char) (hot cold : Part) : Prop where
  hot_mem : hot ∈ asm.parts
  cold_mem : cold ∈ asm.parts
  hot_name : hot.name = some name
  cold_name : cold.name = some (coldName name)
  hot_hooks : ∃ line ∈ hot.function.body, hasHook line
  cold_hooks : ∃ line ∈ cold.function.body, hasHook line

namespace Part
variable (part : Part) (out : List (List Char))

/-- No call of a hook is left in the lines `out`. -/
def Removed : Prop :=
  ∀ k line, part.function.body[k]? = some line → hasHook line → out[part.place + k]? ≠ some line

/-- Every line with a hook is as it was. -/
def Kept : Prop :=
  ∀ k line, part.function.body[k]? = some line → hasHook line → out[part.place + k]? = some line

end Part

/-- The filter treats two parts alike. -/
def TraceSupressor.Together (s : TraceSupressor) (asm : AsmText) (hot cold : Part) : Prop :=
  ∃ out, filterLines s asm.lines = some out ∧
    ((hot.Removed out ∧ cold.Removed out) ∨ (hot.Kept out ∧ cold.Kept out))

/-- A line of a part, in the text with new bodies. -/
theorem getElem?_linesWith {g : Option (List Char) → AsmFunction → List Char → List Char}
    (rest : List (List Char)) : ∀ {fs : List (List (List Char) × AsmFunction)}
      {name : Option (List Char)} {pre : List (List Char)} {part : Part},
      part ∈ partsFrom pre.length name fs → ∀ k, k < part.function.body.length →
        (pre ++ linesWith g name fs ++ rest)[part.place + k]? =
          (part.function.body[k]?).map (g part.name part.function)
  | (out, f) :: fs, name, pre, part, hmem, k, hk => by
    rcases List.mem_cons.1 hmem with rfl | hmem
    · have hsplit : pre ++ linesWith g name ((out, f) :: fs) ++ rest =
          (pre ++ out ++ [f.start]) ++ (f.body.map (g (nameAfter name (out ++ f.body)) f) ++
            (f.stop :: linesWith g (nameAfter name (out ++ f.body)) fs ++ rest)) := by
        simp only [linesWith]
        simp
      have hplace : pre.length + out.length + 1 = (pre ++ out ++ [f.start]).length := by
        simp [Nat.add_assoc]
      rw [hsplit]
      simp only at hk ⊢
      rw [hplace, List.getElem?_append_right (Nat.le_add_right _ _), Nat.add_sub_cancel_left,
        List.getElem?_append_left (by simpa using hk), List.getElem?_map]
    · have hsplit : pre ++ linesWith g name ((out, f) :: fs) ++ rest =
          (pre ++ out ++ f.start :: f.body.map (g (nameAfter name (out ++ f.body)) f) ++ [f.stop]) ++
            linesWith g (nameAfter name (out ++ f.body)) fs ++ rest := by
        simp only [linesWith]
        simp
      rw [hsplit]
      refine getElem?_linesWith rest ?_ k hk
      have hlength : (pre ++ out ++ f.start :: f.body.map (g (nameAfter name (out ++ f.body)) f) ++
          [f.stop]).length = pre.length + out.length + f.lines.length := by
        simp only [AsmFunction.lines, List.length_append, List.length_cons, List.length_map]
        omega
      rw [hlength]
      exact hmem

theorem mentions_of_hasHook {line : List Char} (h : hasHook line) : mentionsHook line := by
  obtain ⟨item, hitem, h⟩ := List.any_eq_true.1 h
  rcases Bool.or_eq_true_iff.1 h with h | h
  · exact mentionsHook_of (Or.inl rfl) (mentions_of_targets infix_of_call hitem h)
  · exact mentionsHook_of (Or.inr rfl) (mentions_of_targets infix_of_jmp hitem h)

section
variable {s : TraceSupressor} {asm : AsmText} {part : Part} {out : List (List Char)}

/-- What the filter makes of a line of a part. -/
theorem getElem?_filterLines (hpart : part ∈ asm.parts) (hout : filterLines s asm.lines = some out)
    {k : ℕ} {line : List Char} (hk : part.function.body[k]? = some line) :
    out[part.place + k]? = some (s.rewriting suppressLine part.name part.function line) := by
  obtain ⟨hlt, -⟩ := List.getElem?_eq_some_iff.1 hk
  rw [filterLines_eq, Option.some.injEq] at hout
  rw [← hout]
  exact (@getElem?_linesWith _ asm.rest asm.functions none [] part hpart k hlt).trans
    (by rw [hk, Option.map_some])

theorem removed_of_reason (hpart : part ∈ asm.parts) (hout : filterLines s asm.lines = some out)
    (hreason : (s.reason part.name part.function).isSome) : part.Removed out := by
  intro k line hk hhook
  obtain ⟨reason, hreason⟩ := Option.isSome_iff_exists.1 hreason
  rw [getElem?_filterLines hpart hout hk, TraceSupressor.rewriting, hreason, ne_eq, Option.some.injEq]
  exact suppressLine_ne (mentions_of_hasHook hhook) reason

theorem kept_of_not_reason (hpart : part ∈ asm.parts) (hout : filterLines s asm.lines = some out)
    (hreason : ¬ (s.reason part.name part.function).isSome) : part.Kept out := by
  intro k line hk _
  rw [Option.not_isSome_iff_eq_none] at hreason
  rw [getElem?_filterLines hpart hout hk, TraceSupressor.rewriting, hreason]

/-- A part with a call of a hook is not both. -/
theorem not_removed_and_kept (hhooks : ∃ line ∈ part.function.body, hasHook line) :
    ¬ (part.Removed out ∧ part.Kept out) := by
  rintro ⟨hremoved, hkept⟩
  obtain ⟨line, hmem, hhook⟩ := hhooks
  obtain ⟨k, hk⟩ := List.mem_iff_getElem?.1 hmem
  exact hremoved k line hk hhook (hkept k line hk hhook)

end

/-- The hooks of two parts are removed or kept together exactly if the filter suppresses both or
    neither. -/
theorem together_iff_reason {asm : AsmText} {name : List Char} {hot cold : Part}
    (h : asm.IsSplit name hot cold) (s : TraceSupressor) :
    s.Together asm hot cold ↔
      ((s.reason hot.name hot.function).isSome ↔ (s.reason cold.name cold.function).isSome) := by
  constructor
  · rintro ⟨out, hout, ⟨hhot, hcold⟩ | ⟨hhot, hcold⟩⟩
    · have hyes {part : Part} (hpart : part ∈ asm.parts) (hhooks : ∃ line ∈ part.function.body, hasHook line)
          (hremoved : part.Removed out) : (s.reason part.name part.function).isSome := by
        by_contra hno
        exact not_removed_and_kept hhooks ⟨hremoved, kept_of_not_reason hpart hout hno⟩
      exact iff_of_true (hyes h.hot_mem h.hot_hooks hhot) (hyes h.cold_mem h.cold_hooks hcold)
    · have hno {part : Part} (hpart : part ∈ asm.parts) (hhooks : ∃ line ∈ part.function.body, hasHook line)
          (hkept : part.Kept out) : ¬ (s.reason part.name part.function).isSome := fun hyes =>
        not_removed_and_kept hhooks ⟨removed_of_reason hpart hout hyes, hkept⟩
      exact iff_of_false (hno h.hot_mem h.hot_hooks hhot) (hno h.cold_mem h.cold_hooks hcold)
  · intro hiff
    refine ⟨_, filterLines_eq s asm, ?_⟩
    by_cases hyes : (s.reason hot.name hot.function).isSome
    · exact Or.inl ⟨removed_of_reason h.hot_mem (filterLines_eq s asm) hyes,
        removed_of_reason h.cold_mem (filterLines_eq s asm) (hiff.1 hyes)⟩
    · exact Or.inr ⟨kept_of_not_reason h.hot_mem (filterLines_eq s asm) hyes,
        kept_of_not_reason h.cold_mem (filterLines_eq s asm) fun h' => hyes (hiff.2 h')⟩

/-- A function `f` and its cold part, which is shorter. -/
def demoSplit : AsmText where
  functions :=
    [(["\t.type\tf, @function".toList, "f:".toList],
      demoFunction (["\tcall\t__fentry__", "\ttestl\t%edi, %edi", "\tjs\t.L3", "\tcall\t__return__",
        "\tret"].map String.toList) (free_of_all (by decide +kernel))),
    (["\t.type\tf.cold, @function".toList, "f.cold:".toList],
      demoFunction ([".L3:", "\tcall\t__return__", "\tcall\tabort"].map String.toList)
        (free_of_all (by decide +kernel)))]
  rest := []
  before_free := List.forall_mem_cons.2 ⟨free_of_all (by decide +kernel),
    List.forall_mem_cons.2 ⟨free_of_all (by decide +kernel), List.forall_mem_nil _⟩⟩
  rest_free := demoHelper.rest_free

/-- The hot part. -/
def demoHot : Part := demoSplit.parts.head (List.cons_ne_nil _ _)

/-- The cold part. -/
def demoCold : Part := demoSplit.parts.getLast (List.cons_ne_nil _ _)

theorem demoSplit_isSplit : demoSplit.IsSplit "f".toList demoHot demoCold where
  hot_mem := List.head_mem _
  cold_mem := List.getLast_mem _
  hot_name := by decide +kernel
  cold_name := by decide +kernel
  hot_hooks := by decide +kernel
  cold_hooks := by decide +kernel

end Funtrace
