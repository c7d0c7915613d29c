/-
  What `funtrace_gdb.py` saves of the mappings of a process.

  `write_proc_maps` saves a mapping if its line has five words, of which it takes the
  last one for the name (`writeProcMaps_eq`).  That is right for a name without blanks
  in the format that the script is written for.  A name of several words is not saved,
  and no name is if the line has one more column.
-/
import Funtrace.Runtime.ProcMaps

namespace Funtrace

/-- What is saved of a mapping. -/
def GdbMapping.saved (m : GdbMapping) : Option SavedMap :=
  match m.lastWords with
  | [path] => some ⟨m.map.start.toNat, m.map.stop.toNat, m.map.offset.toNat, path⟩
  | _ => none

theorem GdbMapping.saved_eq_some {m : GdbMapping} {s : SavedMap} : m.saved = some s ↔
    ∃ path, m.lastWords = [path] ∧
      s = ⟨m.map.start.toNat, m.map.stop.toNat, m.map.offset.toNat, path⟩ := by
  unfold saved
  split
  · next path hpath => simp [hpath, eq_comm]
  · next hno =>
    simp only [reduceCtorEq, false_iff, not_exists, not_and]
    exact fun path hpath => absurd hpath (hno path)

theorem saveMapping_of_words {line : List Char} {m : GdbMapping}
    (hline : "0x".toList.isPrefixOf (strip isPySpace line))
    (hwords : words isPySpace (strip isPySpace line) = m.lineWords) :
    saveMapping line = some m.saved.toList := by
  unfold saveMapping GdbMapping.saved
  rw [if_pos hline, hwords, GdbMapping.lineWords]
  rcases m.lastWords with _ | ⟨path, _ | ⟨word, rest⟩⟩
  · rfl
  · simp [intHex_hexWord]
  · rfl

/-- A line that does not begin with `0x` is no mapping. -/
theorem saveMapping_of_not {line : List Char}
    (hline : ¬ "0x".toList.isPrefixOf (strip isPySpace line)) : saveMapping line = some [] := by
  unfold saveMapping
  rw [if_neg hline]

theorem saveMappings_eq : ∀ {lines : List (List Char)} {mappings : List GdbMapping},
    ((lines.map (strip isPySpace)).filter ("0x".toList.isPrefixOf ·)).map (words isPySpace) =
      mappings.map GdbMapping.lineWords →
    saveMappings lines = some (mappings.filterMap GdbMapping.saved)
  | [], mappings, h => by
    rw [List.map_nil, List.filter_nil, List.map_nil, eq_comm, List.map_eq_nil_iff] at h
    rw [h]
    rfl
  | line :: lines, mappings, h => by
    rw [List.map_cons] at h
    rw [saveMappings]
    by_cases hline : "0x".toList.isPrefixOf (strip isPySpace line)
    · rw [List.filter_cons_of_pos hline, List.map_cons] at h
      obtain ⟨m, mappings, rfl, hwords, hrest⟩ := List.map_eq_cons_iff.1 h.symm
      rw [saveMapping_of_words hline hwords.symm, saveMappings_eq hrest.symm, Option.bind_some,
        Option.map_some, List.filterMap_cons]
      cases m.saved <;> rfl
    · rw [List.filter_cons_of_neg hline] at h
      rw [saveMapping_of_not hline, saveMappings_eq h, Option.bind_some, Option.map_some,
        List.nil_append]

/-- **What is saved** of the mappings that gdb prints. -/
theorem writeProcMaps_eq {mappings : List GdbMapping} {text : List Char}
    (h : InfoProcMappings mappings text) :
    writeProcMaps text = some (mappings.filterMap GdbMapping.saved) := saveMappings_eq h

example : writeProcMaps "0x1000 0x2000 0x1000 0x0 /bin/my prog".toList = some [] := by
  decide +kernel

theorem ofInt_toNat (x : UInt64) : UInt64.ofInt (x.toNat : ℤ) = x := by
  rw [← UInt64.toNat_inj, UInt64.ofInt, UInt64.toNat_ofNat']
  have := x.toNat_lt
  omega

/-- **What is read** of what was saved. -/
theorem mem_read_iff {mappings : List GdbMapping} {pathOf : List Char → Option String}
    {n : MemoryMap} : n ∈ (mappings.filterMap GdbMapping.saved).map (SavedMap.read pathOf) ↔
      ∃ m ∈ mappings, ∃ path, m.lastWords = [path] ∧ n = { m.map with path := pathOf path } := by
  simp only [List.mem_map, List.mem_filterMap, GdbMapping.saved_eq_some]
  constructor
  · rintro ⟨_, ⟨m, hm, path, hpath, rfl⟩, rfl⟩
    exact ⟨m, hm, path, hpath, by simp [SavedMap.read, ofInt_toNat]⟩
  · rintro ⟨m, hm, path, hpath, rfl⟩
    exact ⟨_, ⟨m, hm, path, hpath, rfl⟩, by simp [SavedMap.read, ofInt_toNat]⟩

/-- A name of one word is saved as it is, if there is no other column. -/
theorem GdbMapping.lastWords_eq (m : GdbMapping) (hcolumns : m.columns = []) (hne : m.name ≠ [])
    (hblank : ∀ c ∈ m.name, ¬ isPySpace c) : m.lastWords = [m.name] := by
  have hsplit : m.name.splitOnP isPySpace = [m.name] :=
    List.splitOnP_eq_singleton fun c hc => by simpa using hblank c hc
  simp [lastWords, words, hcolumns, hsplit, hne]

end Funtrace
