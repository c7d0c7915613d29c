/-
  What the lines of ftrace data give does not depend on how timestamps are printed.

  `write_sample_to_json` parses the text twice, with and without the time base.  The
  second pass gives events with the same timestamps as the first
  (`timestamps_shiftedFtrace`), and succeeds if the first one did.
-/
import Funtrace.Viz.Converter

namespace Funtrace

section
variable {f g : UInt64 → Option String}

theorem parseFtraceLine_timestamp (h : ∀ ts, (f ts).isSome = (g ts).isSome) (line : List Char) :
    (parseFtraceLine f line).map (Option.map FtraceEvent.timestamp) =
      (parseFtraceLine g line).map (Option.map FtraceEvent.timestamp) := by
  unfold parseFtraceLine
  split_ifs
  · dsimp only
    split
    · rfl
    · split_ifs
      · rfl
      · split
        · rfl
        · next ts _ =>
          have hts := h ts
          cases hf : f ts <;> cases hg : g ts <;> simp_all
  · rfl

theorem mem_of_mapM {α β : Type} {g : α → Option β} : ∀ {l : List α} {r : List β},
    l.mapM g = some r → ∀ {b : β}, b ∈ r → ∃ a ∈ l, g a = some b
  | [], r, h, b, hb => by
    rw [List.mapM_nil] at h
    cases h
    cases hb
  | a :: l, r, h, b, hb => by
    simp only [List.mapM_cons, Option.bind_eq_bind, Option.pure_def, Option.bind_eq_some_iff,
      Option.some.injEq] at h
    obtain ⟨b', hb', r', hr', rfl⟩ := h
    rcases List.mem_cons.1 hb with rfl | hb
    · exact ⟨a, List.mem_cons_self, hb'⟩
    · obtain ⟨a', ha', hab⟩ := mem_of_mapM hr' hb
      exact ⟨a', List.mem_cons_of_mem a ha', hab⟩

/-- An event keeps its line, but for the timestamp. -/
theorem line_parseFtraceLine {line : List Char} {ev : FtraceEvent}
    (h : parseFtraceLine f line = some (some ev)) :
    ∃ before text after, ev.line = before ++ text ++ after ∧ f ev.timestamp = some text := by
  unfold parseFtraceLine at h
  split_ifs at h
  · dsimp only at h
    split at h
    · cases h
    · split_ifs at h
      split at h
      · cases h
      · next ts _ =>
        obtain ⟨text, htext, heq⟩ := Option.map_eq_some_iff.1 h
        cases heq
        rw [String.ofList_append, String.ofList_append, String.ofList_toList]
        exact ⟨_, text, _, rfl, htext⟩
  · cases h

theorem line_parseFtraceLines {text : String} {events : List FtraceEvent}
    (h : parseFtraceLines text f = some events) {ev : FtraceEvent} (hev : ev ∈ events) :
    ∃ before text after, ev.line = before ++ text ++ after ∧ f ev.timestamp = some text := by
  obtain ⟨results, hresults, rfl⟩ := Option.map_eq_some_iff.1 h
  obtain ⟨result, hmem, hid⟩ := List.mem_filterMap.1 hev
  obtain ⟨line, -, hline⟩ := mem_of_mapM hresults hmem
  rw [show result = some ev from hid] at hline
  exact line_parseFtraceLine hline

theorem mapM_parseFtraceLine (h : ∀ ts, (f ts).isSome = (g ts).isSome) :
    ∀ lines : List (List Char),
      (lines.mapM (parseFtraceLine f)).map (List.map (Option.map FtraceEvent.timestamp)) =
        (lines.mapM (parseFtraceLine g)).map (List.map (Option.map FtraceEvent.timestamp))
  | [] => rfl
  | line :: lines => by
    have hline := parseFtraceLine_timestamp h line
    have hlines := mapM_parseFtraceLine h lines
    simp only [List.mapM_cons, Option.pure_def, Option.bind_eq_bind]
    cases hf : parseFtraceLine f line <;> cases hg : parseFtraceLine g line
    · rfl
    · simp [hf, hg] at hline
    · simp [hf, hg] at hline
    · cases hfs : lines.mapM (parseFtraceLine f) <;> cases hgs : lines.mapM (parseFtraceLine g)
      · rfl
      · simp [hfs, hgs] at hlines
      · simp [hfs, hgs] at hlines
      · simp_all

theorem timestamps_parseFtraceLines (h : ∀ ts, (f ts).isSome = (g ts).isSome) (text : String) :
    (parseFtraceLines text f).map (List.map FtraceEvent.timestamp) =
      (parseFtraceLines text g).map (List.map FtraceEvent.timestamp) := by
  have hfilter : ∀ l : List (Option FtraceEvent),
      (l.filterMap id).map FtraceEvent.timestamp =
        (l.map (Option.map FtraceEvent.timestamp)).filterMap id := by
    intro l
    rw [List.map_filterMap, List.filterMap_map]
    rfl
  have hlines := congrArg (Option.map (List.filterMap id))
    (mapM_parseFtraceLine h (linesOf text.toList))
  simp only [parseFtraceLines, Option.map_map] at hlines ⊢
  convert hlines using 2 <;>
  · funext l
    exact hfilter l

end

namespace TraceConverter

theorem isSome_fixts (c : TraceConverter) (base base' ts : UInt64) :
    (c.fixts base ts).isSome = (c.fixts base' ts).isSome := by
  unfold fixts
  split_ifs <;> rfl

/-- The line of an event has its timestamp shifted by the time base. -/
theorem line_shiftedFtrace {c : TraceConverter} {text : String} {raw shifted : List FtraceEvent}
    (hraw : c.rawFtrace text = some raw) (h : c.shiftedFtrace text raw = some shifted)
    {ev : FtraceEvent} (hev : ev ∈ shifted) : ∃ before printed after,
      ev.line = before ++ printed ++ after ∧ c.fixts c.timeBase ev.timestamp = some printed := by
  unfold shiftedFtrace at h
  split_ifs at h with hbase
  · exact line_parseFtraceLines h hev
  · cases h
    have hzero : c.timeBase = 0 := UInt64.le_antisymm (UInt64.not_lt.1 hbase) UInt64.zero_le
    rw [hzero]
    exact line_parseFtraceLines hraw hev

/-- **The second pass** over the ftrace text gives events with the same timestamps. -/
theorem timestamps_shiftedFtrace {c : TraceConverter} {text : String} {raw : List FtraceEvent}
    (hraw : c.rawFtrace text = some raw) : ∃ shifted, c.shiftedFtrace text raw = some shifted ∧
      shifted.map FtraceEvent.timestamp = raw.map FtraceEvent.timestamp := by
  unfold shiftedFtrace
  split_ifs
  · have htimes := timestamps_parseFtraceLines (c.isSome_fixts c.timeBase 0) text
    have hraw' : parseFtraceLines text (c.fixts 0) = some raw := hraw
    rw [hraw'] at htimes
    exact Option.map_eq_some_iff.1 htimes
  · exact ⟨raw, rfl, rfl⟩

end TraceConverter

end Funtrace
