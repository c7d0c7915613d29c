/-
  Snapshots of ftrace events.

  The buffer of `ftrace_handler` is a ring whose position is wrapped after each write
  (`Follows`).  Read from its position on, it has empty slots and then the events that
  were accepted last, in the order of their timestamps, so both of its halves are
  partitioned and a snapshot has just the events from its time on (`snapshot_eq`).  A
  core dump gives the same lines if and only if they are UTF-8.
-/
import Funtrace.Lib.Ring
import Funtrace.Runtime.FtraceHandler

namespace Funtrace
namespace FtraceHandler

/-- The lines that are events. -/
def acceptedEvents (lines : List (List UInt8)) : List Event :=
  (lines.map fun line => (⟨parseTimestamp line, line⟩ : Event)).filter (·.timestamp ≠ 0)

/-- The events that are still in a buffer of `n` slots. -/
def lastEvents (n : ℕ) (lines : List (List UInt8)) : List Event :=
  (acceptedEvents lines).drop ((acceptedEvents lines).length - n)

/-- The handler's buffer is a ring. -/
structure Follows (h : FtraceHandler) (r : Ring Event) : Prop where
  slots : h.events = r.slots
  pos : h.pos = r.next

theorem follows_init {n : ℕ} (hn : 0 < n) (hne : List.replicate n (⟨0, []⟩ : Event) ≠ []) :
    Follows (init n hn) (Ring.fresh (List.replicate n ⟨0, []⟩) hne) where
  slots := rfl
  pos := by
    unfold init Ring.next Ring.fresh
    split_ifs <;> rfl

variable {h : FtraceHandler} {r : Ring Event}

theorem readLine_accepted {line : List UInt8} (hline : parseTimestamp line ≠ 0) :
    (h.readLine line).events = h.events.set h.pos ⟨parseTimestamp line, line⟩ ∧
      (h.readLine line).pos = (h.pos + 1) % h.events.length := by
  unfold readLine
  simp only [ne_eq, hline, not_false_eq_true, if_true, and_self]

/-- An event is pushed. -/
theorem Follows.readLine (hf : Follows h r) {line : List UInt8} (hline : parseTimestamp line ≠ 0) :
    Follows (h.readLine line) (r.push ⟨parseTimestamp line, line⟩) := by
  obtain ⟨hevents, hpos⟩ := h.readLine_accepted hline
  constructor
  · rw [hevents, hf.slots, hf.pos]
    rfl
  · have hlt := r.next_lt
    have hnext : (r.push ⟨parseTimestamp line, line⟩).next =
        if r.next + 1 = r.slots.length then 0 else r.next + 1 := by
      rw [Ring.next, Ring.length_push]
      rfl
    rw [hpos, hf.slots, hf.pos, hnext]
    split_ifs with hlast
    · rw [hlast, Nat.mod_self]
    · exact Nat.mod_eq_of_lt (by omega)

/-- **The buffer after some lines** has been given the events among them. -/
theorem Follows.threadFunc : ∀ {lines : List (List UInt8)} {h : FtraceHandler} {r : Ring Event},
    Follows h r → Follows (h.threadFunc lines) (r.pushAll (acceptedEvents lines))
  | [], _, _, hf => hf
  | line :: lines, h, r, hf => by
    by_cases hline : parseTimestamp line = 0
    · have hskip : h.readLine line = h := by simp [FtraceHandler.readLine, hline]
      have hnone : acceptedEvents (line :: lines) = acceptedEvents lines := by
        simp [acceptedEvents, hline]
      rw [hnone, FtraceHandler.threadFunc, List.foldl_cons, hskip]
      exact hf.threadFunc
    · have hsome : acceptedEvents (line :: lines) =
          ⟨parseTimestamp line, line⟩ :: acceptedEvents lines := by
        simp [acceptedEvents, hline]
      rw [hsome, Ring.pushAll_cons]
      exact (hf.readLine hline).threadFunc

/-- Read from its position on, the buffer has empty slots and then the last events. -/
theorem contents_threadFunc {n : ℕ} (hn : 0 < n) (lines : List (List UInt8)) :
    let h := (init n hn).threadFunc lines
    h.events.drop h.pos ++ h.events.take h.pos =
      List.replicate (n - (acceptedEvents lines).length) ⟨0, []⟩ ++ lastEvents n lines := by
  intro h
  have hne : List.replicate n (⟨0, []⟩ : Event) ≠ [] := by simpa using Nat.ne_of_gt hn
  have hf : Follows h ((Ring.fresh (List.replicate n ⟨0, []⟩) hne).pushAll (acceptedEvents lines)) :=
    (follows_init hn hne).threadFunc
  have hcontents := Ring.contents_pushAll (acceptedEvents lines)
    (Ring.fresh (List.replicate n (⟨0, []⟩ : Event)) hne)
  rw [Ring.contents_eq_next, Ring.contents_fresh, Ring.contentsFrom, ← hf.slots, ← hf.pos,
    List.drop_append, List.drop_replicate, List.length_replicate] at hcontents
  exact hcontents

/-! ## Snapshots -/

/-- Empty slots, and then events in the order of their timestamps. -/
theorem partitioned_contents {k : ℕ} {es : List Event} (hes : es.Pairwise (·.timestamp ≤ ·.timestamp))
    {t : UInt64} (ht : 1 ≤ t) :
    Partitioned (fun e : Event => e.timestamp < t) (List.replicate k ⟨0, []⟩ ++ es) := by
  have hempty : ∀ e ∈ List.replicate k (⟨0, []⟩ : Event), e.timestamp < t := by
    intro e he
    rw [List.eq_of_mem_replicate he]
    exact UInt64.lt_of_lt_of_le (by decide) ht
  refine List.pairwise_append.2 ⟨?_, ?_, ?_⟩
  · exact List.pairwise_of_forall_mem_list fun e he e' _ _ => decide_eq_true (hempty e he)
  · refine hes.imp fun hle hlt => ?_
    rw [decide_eq_true_eq] at hlt ⊢
    exact UInt64.lt_of_le_of_lt hle hlt
  · exact fun e he e' _ _ => decide_eq_true (hempty e he)

theorem copyLines_find {range : List Event} {t : UInt64}
    (hpart : Partitioned (fun e : Event => e.timestamp < t) range) :
    copyLines range (findEarliestEventAfter range t) =
      (range.filter fun e => t ≤ e.timestamp).map (·.line) := by
  have hdrop := drop_lowerBound hpart
  have hfilter : range.filter (fun e => t ≤ e.timestamp) =
      range.filter fun e => !decide (e.timestamp < t) :=
    List.filter_congr fun e _ => by rw [← decide_not, decide_eq_decide, UInt64.not_lt]
  rw [hfilter, ← hdrop]
  unfold findEarliestEventAfter
  dsimp only
  split_ifs with hend
  · rw [hend, List.drop_length]
    rfl
  · rfl

theorem timestamp_ne_zero {lines : List (List UInt8)} {n : ℕ} {e : Event} (he : e ∈ lastEvents n lines) :
    e.timestamp ≠ 0 := by
  have hmem := (List.mem_filter.1 (List.mem_of_mem_drop he)).2
  simpa using hmem

/-- **A snapshot** has the lines of the events from its time on. -/
theorem eventsSnapshot_eq {n : ℕ} (hn : 0 < n) {lines : List (List UInt8)}
    (hsorted : (acceptedEvents lines).Pairwise (·.timestamp ≤ ·.timestamp)) {t : UInt64} (ht : 1 ≤ t) :
    ((init n hn).threadFunc lines).eventsSnapshot t =
      ((lastEvents n lines).filter fun e => t ≤ e.timestamp).map (·.line) := by
  have hcontents := contents_threadFunc hn lines
  have hpart := partitioned_contents (k := n - (acceptedEvents lines).length)
    (hsorted.sublist (List.drop_sublist ((acceptedEvents lines).length - n) _)) ht
  unfold eventsSnapshot
  dsimp only at hcontents ⊢
  change Partitioned _ (_ ++ lastEvents n lines) at hpart
  rw [← hcontents] at hpart
  rw [copyLines_find (hpart.sublist (List.sublist_append_left _ _)),
    copyLines_find (hpart.sublist (List.sublist_append_right _ _)), ← List.map_append,
    ← List.filter_append, hcontents, List.filter_append]
  have hnone : (List.replicate (n - (acceptedEvents lines).length) (⟨0, []⟩ : Event)).filter
      (fun e => t ≤ e.timestamp) = [] := by
    refine List.filter_eq_nil_iff.2 fun e he => ?_
    rw [List.eq_of_mem_replicate he, decide_eq_true_eq]
    exact UInt64.not_le.2 (UInt64.lt_of_lt_of_le (by decide) ht)
  rw [hnone, List.nil_append]

/-! ## Core dumps -/

/-- The lines of a core dump, if all are UTF-8. -/
theorem gdbLines_eq {n : ℕ} (hn : 0 < n) (lines : List (List UInt8)) :
    ((init n hn).threadFunc lines).gdbLines =
      (lastEvents n lines).mapM fun e => getString e.line := by
  have hcontents := contents_threadFunc hn lines
  dsimp only at hcontents
  have hfilter : (lastEvents n lines).filter (·.timestamp ≠ 0) = lastEvents n lines :=
    List.filter_eq_self.2 fun e he => by simpa using timestamp_ne_zero he
  have hnone : (List.replicate (n - (acceptedEvents lines).length) (⟨0, []⟩ : Event)).filter
      (·.timestamp ≠ 0) = [] :=
    List.filter_eq_nil_iff.2 fun e he => by simp [List.eq_of_mem_replicate he]
  have hread := congrArg (List.filter (·.timestamp ≠ 0)) hcontents
  rw [List.filter_append, List.filter_append, hfilter, hnone, List.nil_append] at hread
  rw [← hread, List.mapM_append]
  rfl

theorem mapM_getString : ∀ es : List Event,
    (es.mapM fun e => getString e.line).map (List.map utf8Bytes) =
      if ∀ e ∈ es, (getString e.line).isSome then some (es.map (·.line)) else none
  | [] => by simp
  | e :: es => by
    have ih := mapM_getString es
    rw [List.mapM_cons]
    cases he : getString e.line with
    | none => simp [he]
    | some s =>
      have hbytes : utf8Bytes s = e.line := decodeUtf8_eq_some.1 he
      have hrest : (∀ e' ∈ e :: es, (getString e'.line).isSome) ↔
          ∀ e' ∈ es, (getString e'.line).isSome := by
        rw [List.forall_mem_cons, he]
        exact and_iff_right rfl
      rw [if_congr hrest rfl rfl]
      by_cases hall : ∀ e' ∈ es, (getString e'.line).isSome
      · rw [if_pos hall] at ih ⊢
        obtain ⟨ss, hes, hss⟩ := Option.map_eq_some_iff.1 ih
        simp [hes, hbytes, hss]
      · rw [if_neg hall] at ih ⊢
        rw [Option.map_eq_none_iff] at ih
        simp [ih]

/-- **Snapshots of ftrace events.**  A snapshot has the last events from its time on, in their order.
    A core dump gives the same lines as the snapshot of all events if and only if they are UTF-8. -/
theorem eventsSnapshot_iff {n : ℕ} (hn : 0 < n) {lines : List (List UInt8)}
    (hsorted : (acceptedEvents lines).Pairwise (·.timestamp ≤ ·.timestamp)) :
    (∀ t, 1 ≤ t → ((init n hn).threadFunc lines).eventsSnapshot t =
      ((lastEvents n lines).filter fun e => t ≤ e.timestamp).map (·.line)) ∧
    (((init n hn).threadFunc lines).gdbLines.map (List.map utf8Bytes) =
        some (((init n hn).threadFunc lines).eventsSnapshot 1) ↔
      ∀ e ∈ lastEvents n lines, (getString e.line).isSome) := by
  refine ⟨fun t ht => eventsSnapshot_eq hn hsorted ht, ?_⟩
  have hall : (lastEvents n lines).filter (fun e => 1 ≤ e.timestamp) = lastEvents n lines := by
    refine List.filter_eq_self.2 fun e he => ?_
    have hpos : e.timestamp.toNat ≠ 0 := fun h0 => timestamp_ne_zero he (UInt64.toNat_inj.1 h0)
    rw [decide_eq_true_eq, UInt64.le_iff_toNat_le]
    exact Nat.pos_of_ne_zero hpos
  rw [gdbLines_eq, mapM_getString, eventsSnapshot_eq hn hsorted (by decide), hall]
  constructor
  · intro heq
    by_contra hnot
    rw [if_neg hnot] at heq
    cases heq
  · intro hsome
    rw [if_pos hsome]

/-- Two events at one time, and a line that has no time, between them and an earlier one. -/
def demoLines : List (List UInt8) :=
  [(utf8Bytes "main-7 [0] d 10: sched_switch"), (utf8Bytes "CPU:1 [LOST 3 EVENTS]"),
    (utf8Bytes "main-7 [0] d 20: sched_waking"), (utf8Bytes "main-7 [1] d 20: task_rename")]

/-- The first event has left the buffer. -/
theorem eventsSnapshot_iff_demo : ((init 2 (by decide)).threadFunc demoLines).eventsSnapshot 20 =
      [utf8Bytes "main-7 [0] d 20: sched_waking", utf8Bytes "main-7 [1] d 20: task_rename"] ∧
    ((init 2 (by decide)).threadFunc demoLines).gdbLines.map (List.map utf8Bytes) =
      some (((init 2 (by decide)).threadFunc demoLines).eventsSnapshot 1) := by
  obtain ⟨hsnapshot, hgdb⟩ := @eventsSnapshot_iff 2 (by decide) demoLines (by decide +kernel)
  refine ⟨(hsnapshot 20 (by decide)).trans (by decide +kernel), hgdb.2 (by decide +kernel)⟩

/-- The thread's name is cut within a character. -/
theorem not_gdbLines : ¬ ∀ (n : ℕ) (hn : 0 < n) (lines : List (List UInt8)),
    (acceptedEvents lines).Pairwise (·.timestamp ≤ ·.timestamp) →
      ((init n hn).threadFunc lines).gdbLines.map (List.map utf8Bytes) =
        some (((init n hn).threadFunc lines).eventsSnapshot 1) := by
  intro hall
  have hsame := hall 1 (by decide) [0xc3 :: utf8Bytes "-7 [0] d 10: sched_switch"] (by decide +kernel)
  revert hsame
  decide +kernel

end FtraceHandler
end Funtrace
