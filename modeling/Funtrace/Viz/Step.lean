/-
  What one entry does to the decoder.

  Whatever its kind, an entry that is not a call pops `popCount` frames from the
  stack and writes them top first, with one more nanosecond each (`popCalls`).
  Two exceptions: a return with an empty stack is an orphan, and a return that
  matches no frame (`Unmatched`) writes the bottom frame a second time.

  `handle_call`, `handle_orphan` and `handle_pop` say this of `handle`; the
  results about whole runs only use these.
-/
import Mathlib.Data.List.TakeWhile
import Mathlib.Data.Int.Cast.Lemmas
import Funtrace.Viz.Decoder

namespace Funtrace

section
variable (sym : UInt64 → SymInfo)

/-- The calls writing `frames`, top first, with extra nanoseconds from `n` on. -/
def popCalls (cycle : UInt64) : ℤ → List FunTraceEntry → List FunctionCall
  | _, [] => []
  | n, f :: fs => ⟨symOf sym f, f.cycle, cycle, n⟩ :: popCalls cycle (n + 1) fs

/-- A frame that a catch in `catcher` unwinds. -/
def unwinds (catcher : String) (f : FunTraceEntry) : Bool :=
  !f.returnsUponThrow && catcher ≠ nameOf sym f

/-- The number of frames that an entry pops from a stack. -/
def popCount (stack : List FunTraceEntry) (entry : FunTraceEntry) : ℕ :=
  let other := fun f => decide (nameOf sym entry ≠ nameOf sym f)
  if entry.isCatch then (stack.takeWhile (unwinds sym (nameOf sym entry))).length
  else if entry.isRet then
    if entry.isRetWithCallerAddr then
      1 + if stack.tail.all other then 0 else (stack.tail.takeWhile other).length
    else (stack.takeWhile other).length + 1
  else 0

/-- A return with the callee's address when no frame has the callee's name. -/
def Unmatched (stack : List FunTraceEntry) (entry : FunTraceEntry) : Prop :=
  entry.isRet ∧ ¬ entry.isRetWithCallerAddr ∧ stack ≠ [] ∧
    ∀ f ∈ stack, nameOf sym entry ≠ nameOf sym f

instance (stack : List FunTraceEntry) (entry : FunTraceEntry) :
    Decidable (Unmatched sym stack entry) := by unfold Unmatched; infer_instance

/-- The repeated write of an unmatched return: the bottom frame once more. -/
def repeated (stack : List FunTraceEntry) (entry : FunTraceEntry) : List FunctionCall :=
  if Unmatched sym stack entry then
    match stack.getLast? with
    | none => []
    | some f => [⟨symOf sym f, f.cycle, entry.cycle, (stack.length : ℤ) - 1⟩]
  else []

/-- The first of the extra nanoseconds given by an entry. -/
def firstExtra (entry : FunTraceEntry) : ℕ := if entry.isCatch then 1 else 0

variable {sym}

theorem firstExtra_le_one (e : FunTraceEntry) : firstExtra e ≤ 1 := by
  unfold firstExtra; split_ifs <;> omega

theorem repeated_eq_nil {stack : List FunTraceEntry} {e : FunTraceEntry} :
    repeated sym stack e = [] ↔ ¬ Unmatched sym stack e := by
  unfold repeated
  split_ifs with h
  · rw [List.getLast?_eq_getLast_of_ne_nil h.2.2.1]
    simp [h]
  · simp [h]

/-! ## The loops -/

theorem popCalls_append (cycle : UInt64) (fs gs : List FunTraceEntry) :
    ∀ n : ℤ, popCalls sym cycle n (fs ++ gs) =
      popCalls sym cycle n fs ++ popCalls sym cycle (n + fs.length) gs := by
  induction fs with
  | nil => simp [popCalls]
  | cons f fs ih =>
    intro n
    simp only [List.cons_append, popCalls, ih, List.length_cons]
    rw [show n + 1 + (fs.length : ℤ) = n + ((fs.length + 1 : ℕ) : ℤ) by push_cast; omega]

@[simp] theorem length_popCalls (cycle : UInt64) (fs : List FunTraceEntry) :
    ∀ n : ℤ, (popCalls sym cycle n fs).length = fs.length := by
  induction fs with
  | nil => intro n; rfl
  | cons f fs ih => intro n; rw [popCalls, List.length_cons, ih, List.length_cons]

variable (sym) in
theorem getElem_popCalls (cycle : UInt64) (fs : List FunTraceEntry) :
    ∀ (n : ℤ) (i : ℕ) (h : i < fs.length) (h' : i < (popCalls sym cycle n fs).length),
      (popCalls sym cycle n fs)[i] = ⟨symOf sym fs[i], fs[i].cycle, cycle, n + i⟩ := by
  induction fs with
  | nil => intro n i h; simp at h
  | cons f fs ih =>
    intro n i h h'
    cases i with
    | zero => simp [popCalls]
    | succ i =>
      simp only [popCalls, List.getElem_cons_succ]
      rw [ih (n + 1) i (by simpa using h) (by simpa using h)]
      simp only [FunctionCall.mk.injEq, true_and]
      push_cast; omega

/-- The fake returns pop the whole stack, except that they are written in reverse. -/
theorem fakeReturns_eq (latest : UInt64) (stack : List FunTraceEntry) :
    fakeReturns sym latest stack = (popCalls sym latest 1 stack).reverse := by
  refine List.ext_getElem (by simp [fakeReturns]) fun i hi hi' => ?_
  have hlen : i < stack.length := by simpa using hi'
  simp only [fakeReturns, List.getElem_mapIdx, List.getElem_reverse, length_popCalls]
  rw [getElem_popCalls sym latest stack 1 (stack.length - 1 - i) (by omega)]
  simp only [FunctionCall.mk.injEq, true_and]
  omega

theorem unwind_eq (catcher : String) (cycle : UInt64) (stack : List FunTraceEntry) :
    ∀ n : ℤ, unwind sym catcher cycle stack n =
      (popCalls sym cycle (n + 1) (stack.takeWhile (unwinds sym catcher)),
        stack.dropWhile (unwinds sym catcher)) := by
  induction stack with
  | nil => intro n; rfl
  | cons f fs ih =>
    intro n
    by_cases hf : f.returnsUponThrow
    · simp [unwind, unwinds, hf, popCalls]
    · by_cases hc : catcher = nameOf sym f
      · simp [unwind, unwinds, hf, hc, popCalls]
      · have hu : unwinds sym catcher f = true := by simp [unwinds, hf, hc]
        simp [unwind, hf, hc, ih, hu, popCalls]

/-- A loop that stops at a found entry: it writes the frames above it. -/
theorem popUntil_found (found : FunTraceEntry → List FunTraceEntry → Bool) (cycle : UInt64)
    {last : FunTraceEntry} {rest : List FunTraceEntry} (hlast : found last rest) :
    ∀ (above : List FunTraceEntry) (call : FunTraceEntry) (n : ℤ),
      (∀ xs y ys, above = xs ++ y :: ys → found y (ys ++ last :: rest) = false) →
      popUntil sym found cycle call (above ++ last :: rest) n =
        (popCalls sym cycle n (call :: above), ⟨last, rest, n + 1 + above.length⟩)
  | [], call, n, _ => by simp [popUntil, hlast, popCalls]
  | y :: above, call, n, h => by
    have hy : found y (above ++ last :: rest) = false := h [] y above rfl
    have ih := popUntil_found found cycle hlast above y (n + 1)
      fun xs z zs hz => h (y :: xs) z zs (by rw [hz]; rfl)
    rw [List.cons_append, popUntil, hy, if_neg (by simp), ih]
    simp only [popCalls, List.length_cons, Prod.mk.injEq, Popped.mk.injEq, true_and]
    push_cast; omega

/-- A loop that finds nothing writes everything, the last entry being kept. -/
theorem popUntil_not_found (found : FunTraceEntry → List FunTraceEntry → Bool) (cycle : UInt64) :
    ∀ (stack : List FunTraceEntry) (call : FunTraceEntry) (n : ℤ),
      (∀ xs y ys, stack = xs ++ y :: ys → found y ys = false) →
      popUntil sym found cycle call stack n =
        (popCalls sym cycle n (call :: stack),
          ⟨(call :: stack).getLast (List.cons_ne_nil _ _), [], n + stack.length⟩)
  | [], call, n, _ => by simp [popUntil, popCalls]
  | y :: stack, call, n, h => by
    have hy : found y stack = false := h [] y stack rfl
    have ih := popUntil_not_found found cycle stack y (n + 1)
      fun xs z zs hz => h (y :: xs) z zs (by rw [hz]; rfl)
    rw [popUntil, hy, if_neg (by simp), ih]
    simp only [popCalls, List.length_cons, List.getLast_cons_cons, Prod.mk.injEq,
      Popped.mk.injEq, true_and]
    push_cast; omega

/-- The first element of a list that fails a test, with what is above it. -/
theorem split_first {α : Type} (q : α → Bool) :
    ∀ l : List α, (∀ x ∈ l, q x) ∨
      ∃ above last rest, l = above ++ last :: rest ∧ (∀ x ∈ above, q x) ∧ q last = false
  | [] => Or.inl (by simp)
  | x :: l => by
    cases hx : q x with
    | false => exact Or.inr ⟨[], x, l, rfl, by simp, hx⟩
    | true =>
      rcases split_first q l with h | ⟨above, last, rest, rfl, h, hlast⟩
      · exact Or.inl fun y hy => by rcases List.mem_cons.1 hy with rfl | hy; exacts [hx, h y hy]
      · refine Or.inr ⟨x :: above, last, rest, rfl, fun y hy => ?_, hlast⟩
        rcases List.mem_cons.1 hy with rfl | hy
        exacts [hx, h y hy]

theorem takeWhile_split {α : Type} {q : α → Bool} {above : List α} {last : α} (rest : List α)
    (h : ∀ x ∈ above, q x) (hlast : q last = false) :
    (above ++ last :: rest).takeWhile q = above := by
  rw [List.takeWhile_append_of_pos h, List.takeWhile_cons_of_neg (by simp [hlast])]
  exact List.append_nil _

theorem take_drop_takeWhile {α : Type} (p : α → Bool) (l : List α) :
    l.take (l.takeWhile p).length = l.takeWhile p ∧ l.drop (l.takeWhile p).length = l.dropWhile p := by
  have h := List.takeWhile_append_dropWhile (p := p) (l := l)
  have htake := @List.take_left _ (l.takeWhile p) (l.dropWhile p)
  have hdrop := @List.drop_left _ (l.takeWhile p) (l.dropWhile p)
  rw [h] at htake hdrop
  exact ⟨htake, hdrop⟩

/-! ## The step -/

theorem handle_call (earliest : UInt64) (d : Dec) {e : FunTraceEntry} (he : e.isCall) :
    handle sym earliest d e = ({ d with stack := e :: d.stack }, []) := by
  simp [handle, FunTraceEntry.isCatch_of_isCall he, FunTraceEntry.isRet_of_isCall he]

theorem handle_orphan (earliest : UInt64) {d : Dec} {e : FunTraceEntry} (he : e.isRet)
    (hd : d.stack = []) : handle sym earliest d e = orphanReturn sym earliest d e := by
  simp [handle, FunTraceEntry.isCatch_of_isRet he, he, hd]

theorem handle_catch (earliest : UInt64) (d : Dec) {e : FunTraceEntry} (he : e.isCatch) :
    handle sym earliest d e =
      ({ d with stack := d.stack.drop (popCount sym d.stack e) },
        popCalls sym e.cycle 1 (d.stack.take (popCount sym d.stack e))) := by
  obtain ⟨htake, hdrop⟩ := take_drop_takeWhile (unwinds sym (nameOf sym e)) d.stack
  simp only [handle, popCount, he, if_true, unwind_eq]
  rw [htake, hdrop]; rfl

theorem handle_return (earliest : UInt64) (d : Dec) {e call : FunTraceEntry} (he : e.isRet)
    {stack : List FunTraceEntry} (hd : d.stack = call :: stack) :
    handle sym earliest d e = popReturn sym d e call stack := by
  simp [handle, FunTraceEntry.isCatch_of_isRet he, he, hd]

theorem popCount_own {e : FunTraceEntry} (hret : e.isRet) (he : e.isRetWithCallerAddr = false)
    (stack : List FunTraceEntry) : popCount sym stack e =
      (stack.takeWhile fun f => decide (nameOf sym e ≠ nameOf sym f)).length + 1 := by
  simp only [popCount, FunTraceEntry.isCatch_of_isRet hret, hret, he, Bool.false_eq_true, if_false,
    if_true]

theorem popCount_caller {e : FunTraceEntry} (hret : e.isRet) (he : e.isRetWithCallerAddr)
    (call : FunTraceEntry) (stack : List FunTraceEntry) : popCount sym (call :: stack) e =
      1 + if stack.all fun f => decide (nameOf sym e ≠ nameOf sym f) then 0
        else (stack.takeWhile fun f => decide (nameOf sym e ≠ nameOf sym f)).length := by
  simp only [popCount, FunTraceEntry.isCatch_of_isRet hret, hret, he, Bool.false_eq_true, if_false,
    if_true]
  rfl

/-- A return with the callee's address pops until the callee. -/
theorem popReturn_own (d : Dec) {e : FunTraceEntry} (hret : e.isRet)
    (he : e.isRetWithCallerAddr = false) (call : FunTraceEntry) (stack : List FunTraceEntry) :
    popReturn sym d e call stack =
      (⟨(call :: stack).drop (popCount sym (call :: stack) e), d.numOrphanReturns,
          d.expectingToReturnIntoSym⟩,
        popCalls sym e.cycle 0 ((call :: stack).take (popCount sym (call :: stack) e)) ++
          repeated sym (call :: stack) e) := by
  rcases split_first (fun f => decide (nameOf sym e ≠ nameOf sym f)) (call :: stack) with
    h | ⟨above, last, rest, hst, habove, hlast⟩
  · -- no frame has the name: the loop empties the stack, the last write is repeated
    have hne : ∀ f ∈ call :: stack, nameOf sym e ≠ nameOf sym f := by simpa using h
    have hu : Unmatched sym (call :: stack) e := ⟨hret, by simp [he], by simp, hne⟩
    have hcount : popCount sym (call :: stack) e = (call :: stack).length + 1 := by
      rw [popCount_own hret he, List.takeWhile_eq_self_iff.2 h]
    have hloop := @popUntil_not_found sym (fun last _ => nameOf sym e = nameOf sym last) e.cycle
      stack call 0 fun xs y ys hy => by simpa using hne y (by simp [hy])
    rw [hcount, List.take_of_length_le (by omega), List.drop_of_length_le (by omega), repeated,
      if_pos hu, List.getLast?_eq_getLast_of_ne_nil (List.cons_ne_nil _ _)]
    simp [popReturn, he, popUntilReturning, hne call (by simp), hloop]
  · have hu : ¬ Unmatched sym (call :: stack) e := fun hu => by
      have := hu.2.2.2 last (by rw [hst]; simp)
      simp [this] at hlast
    have heq : nameOf sym e = nameOf sym last := by simpa using hlast
    have hcount : popCount sym (call :: stack) e = above.length + 1 := by
      rw [popCount_own hret he, hst, takeWhile_split rest habove hlast]
    have htake : (call :: stack).take (above.length + 1) = above ++ [last] := by
      rw [hst]; simp [List.take_append]
    have hdrop : (call :: stack).drop (above.length + 1) = rest := by
      rw [hst]; simp [List.drop_append]
    rw [hcount, htake, hdrop, repeated, if_neg hu, List.append_nil]
    cases above with
    | nil =>
      obtain ⟨rfl, rfl⟩ : call = last ∧ stack = rest := by simpa using hst
      simp [popReturn, he, popUntilReturning, heq, popCalls]
    | cons c above =>
      obtain ⟨rfl, rfl⟩ : call = c ∧ stack = above ++ last :: rest := by simpa using hst
      have hc : nameOf sym e ≠ nameOf sym call := by simpa using habove call (by simp)
      have hloop := @popUntil_found sym (fun last _ => nameOf sym e = nameOf sym last) e.cycle
        last rest (by simpa using heq) above call 0 fun xs y ys hy => by
          simpa using habove y (by simp [hy])
      simp only [popReturn, he, Bool.false_eq_true, if_false, popUntilReturning, if_pos hc, hloop,
        popCalls_append, popCalls]
      simp [Int.add_comm]

/-- A return with the caller's address pops its call, and what is above the caller if
    the caller is on the stack. -/
theorem popReturn_caller (d : Dec) {e : FunTraceEntry} (hret : e.isRet)
    (he : e.isRetWithCallerAddr) (call : FunTraceEntry) (stack : List FunTraceEntry) :
    popReturn sym d e call stack =
      (⟨(call :: stack).drop (popCount sym (call :: stack) e), d.numOrphanReturns,
          symOf sym e⟩,
        popCalls sym e.cycle 0 ((call :: stack).take (popCount sym (call :: stack) e))) := by
  rcases split_first (fun f => decide (nameOf sym e ≠ nameOf sym f)) stack with
    h | ⟨above, last, rest, rfl, habove, hlast⟩
  · -- the caller is not on the stack: nothing more is popped
    have hcount : popCount sym (call :: stack) e = 1 := by
      rw [popCount_caller hret he, if_pos (by simpa using h)]
    have hnone : popUntilCaller sym (nameOf sym e) e.cycle call stack = ([], ⟨call, stack, 0⟩) := by
      cases stack with
      | nil => rfl
      | cons c stack =>
        have hany : ¬ (c :: stack).any (fun f => nameOf sym f = nameOf sym e) := by
          simp only [List.any_eq_true, decide_eq_true_eq, not_exists, not_and]
          exact fun f hf heq => by simpa [heq] using h f hf
        simp only [popUntilCaller, hany, Bool.false_eq_true, and_false, if_false]
    simp [popReturn, he, hnone, hcount, popCalls]
  · have heq : nameOf sym e = nameOf sym last := by simpa using hlast
    have hcount : popCount sym (call :: (above ++ last :: rest)) e = 1 + above.length := by
      rw [popCount_caller hret he, takeWhile_split rest habove hlast, if_neg (by simp [heq])]
    rw [hcount, Nat.add_comm, List.take_succ_cons, List.drop_succ_cons, List.take_left,
      List.drop_left]
    cases above with
    | nil => simp [popReturn, he, popUntilCaller, heq, popCalls]
    | cons c above =>
      -- the last frame above the caller is the one found
      obtain ⟨above', y, hy⟩ : ∃ above' y, c :: above = above' ++ [y] :=
        ⟨_, _, (List.dropLast_append_getLast (List.cons_ne_nil c above)).symm⟩
      have hc : nameOf sym e ≠ nameOf sym c := by simpa using habove c (by simp)
      have hany : (c :: above ++ last :: rest).any (fun f => nameOf sym f = nameOf sym e) := by
        simp [heq]
      have hloop := @popUntil_found sym
        (fun _ rest => rest.head?.any fun f => nameOf sym e = nameOf sym f) e.cycle
        y (last :: rest) (by simpa using heq) above' call 0 fun xs z zs hz => by
          have hmem : ∀ x ∈ zs ++ [y], nameOf sym e ≠ nameOf sym x := fun x hx => by
            have hx' : x ∈ c :: above := by
              rw [hy, hz]; rcases List.mem_append.1 hx with h | h <;> simp_all
            simpa using habove x hx'
          cases zs with
          | nil => simpa using hmem y (by simp)
          | cons z' zs => simpa using hmem z' (by simp)
      have hstack : c :: above ++ last :: rest = above' ++ y :: last :: rest := by
        rw [hy, List.append_assoc]; rfl
      have hpop : popUntilCaller sym (nameOf sym e) e.cycle call (c :: above ++ last :: rest) =
          (popCalls sym e.cycle 0 (call :: above'), ⟨y, last :: rest, 0 + 1 + above'.length⟩) := by
        rw [← hloop, ← hstack]
        simp only [popUntilCaller, List.cons_append]
        rw [if_pos ⟨hc, by simpa using hany⟩]
      simp only [popReturn, he, if_true, hpop]
      rw [hy, ← List.cons_append, popCalls_append]
      simp [popCalls, Int.add_comm]

/-- What an unmatched return writes twice is its last write. -/
theorem mem_popCalls_of_repeated {stack : List FunTraceEntry} {e : FunTraceEntry}
    {c : FunctionCall} (hc : c ∈ repeated sym stack e) :
    c ∈ popCalls sym e.cycle (firstExtra e) (stack.take (popCount sym stack e)) := by
  have hu : Unmatched sym stack e := by
    by_contra hu
    rw [repeated_eq_nil.2 hu] at hc
    cases hc
  obtain ⟨hret, hw, hne, hall⟩ := id hu
  have hcount : popCount sym stack e = stack.length + 1 := by
    rw [popCount_own hret (by simpa using hw), List.takeWhile_eq_self_iff.2 (by simpa using hall)]
  rw [repeated, if_pos hu, List.getLast?_eq_getLast_of_ne_nil hne] at hc
  rw [hcount, List.take_of_length_le (by omega), firstExtra,
    if_neg (by simp [FunTraceEntry.isCatch_of_isRet hret])]
  have hpos : 0 < stack.length := List.length_pos_iff.2 hne
  have hget := getElem_popCalls sym e.cycle stack 0 (stack.length - 1) (by omega)
    (by rw [length_popCalls]; omega)
  rw [List.mem_singleton.1 hc, List.getLast_eq_getElem]
  rw [show ((stack.length : ℤ) - 1) = 0 + ((stack.length - 1 : ℕ) : ℤ) by omega, ← hget]
  exact List.getElem_mem _

/-- An entry that is neither a call nor an orphan pops `popCount` frames. -/
theorem handle_pop (earliest : UInt64) {d : Dec} {e : FunTraceEntry} (hcall : e.isCall = false)
    (hd : e.isRet → d.stack ≠ []) :
    (handle sym earliest d e).1.stack = d.stack.drop (popCount sym d.stack e) ∧
    (handle sym earliest d e).1.numOrphanReturns = d.numOrphanReturns ∧
    (handle sym earliest d e).2 =
      popCalls sym e.cycle (firstExtra e) (d.stack.take (popCount sym d.stack e)) ++
        repeated sym d.stack e := by
  by_cases hcatch : e.isCatch
  · have hu : ¬ Unmatched sym d.stack e := fun hu => by
      have hret := hu.1
      simp [FunTraceEntry.isRet_of_isCatch hcatch] at hret
    rw [handle_catch earliest d hcatch, repeated, if_neg hu, List.append_nil, firstExtra,
      if_pos hcatch]
    exact ⟨rfl, rfl, rfl⟩
  · have hret : e.isRet := by
      cases hr : e.isRet with
      | true => rfl
      | false => simp [FunTraceEntry.isCall, hr, hcatch] at hcall
    obtain ⟨call, stack, hst⟩ := List.exists_cons_of_ne_nil (hd hret)
    rw [handle_return earliest d hret hst, hst, firstExtra, if_neg hcatch]
    cases hw : e.isRetWithCallerAddr with
    | false => rw [popReturn_own d hret hw]; exact ⟨rfl, rfl, rfl⟩
    | true =>
      have hu : ¬ Unmatched sym (call :: stack) e := fun hu => hu.2.1 hw
      rw [popReturn_caller d hret hw, repeated, if_neg hu, List.append_nil]
      exact ⟨rfl, rfl, rfl⟩

/-- Only a call or an orphan return leaves anything else on the stack than `popCount` says. -/
theorem handle_stack_of_pops (earliest : UInt64) {d : Dec} {e : FunTraceEntry}
    (h : 1 < popCount sym d.stack e) :
    (handle sym earliest d e).1.stack = d.stack.drop (popCount sym d.stack e) := by
  have hcall : e.isCall = false := by
    by_contra hcall
    rw [Bool.not_eq_false] at hcall
    simp [popCount, FunTraceEntry.isCatch_of_isCall hcall, FunTraceEntry.isRet_of_isCall hcall] at h
  refine (handle_pop earliest hcall fun hret hd => ?_).1
  rw [hd] at h
  simp [popCount, FunTraceEntry.isCatch_of_isRet hret, hret] at h

variable (sym) in
theorem handle_orphan_calls (earliest : UInt64) {d : Dec} {e : FunTraceEntry} (he : e.isRet)
    (hd : d.stack = []) : ∃ s, (handle sym earliest d e).2 =
      [⟨s, earliest, e.cycle, -(d.numOrphanReturns + 1)⟩] := by
  rw [handle_orphan _ he hd]
  unfold orphanReturn
  split <;> exact ⟨_, rfl⟩

theorem handle_numOrphanReturns (earliest : UInt64) (d : Dec) (e : FunTraceEntry) :
    (handle sym earliest d e).1.numOrphanReturns =
      d.numOrphanReturns + if e.isRet ∧ d.stack = [] then 1 else 0 := by
  cases hcall : e.isCall with
  | true => simp [handle_call _ _ hcall, FunTraceEntry.isRet_of_isCall hcall]
  | false =>
    split_ifs with hd
    · rw [handle_orphan _ hd.1 hd.2]
      unfold orphanReturn
      split <;> rfl
    · rw [(handle_pop earliest hcall fun hr h => hd ⟨hr, h⟩).2.1, add_zero]

/-- Every entry writes the frames that it pops. -/
theorem popCalls_subset_handle (earliest : UInt64) (d : Dec) (e : FunTraceEntry) :
    popCalls sym e.cycle (firstExtra e) (d.stack.take (popCount sym d.stack e)) ⊆
      (handle sym earliest d e).2 := by
  cases hcall : e.isCall with
  | true =>
    simp [popCount, FunTraceEntry.isCatch_of_isCall hcall, FunTraceEntry.isRet_of_isCall hcall,
      popCalls]
  | false =>
    by_cases hd : e.isRet ∧ d.stack = []
    · simp [hd.2, popCalls]
    · rw [(handle_pop earliest hcall fun hr h => hd ⟨hr, h⟩).2.2]
      exact List.subset_append_left _ _

end

end Funtrace
