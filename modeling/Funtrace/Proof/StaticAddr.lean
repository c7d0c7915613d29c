/-
  The address that is looked up in the symbol table.

  Of the address `a` of a process `proc_addr2sym` looks up `lookedUp a` in the table of
  an executable.  A map says where its file offset lies in the process, and the first
  program header that contains the offset where it lies in the file's addresses.  So the
  address is right if and only if that header has the same `p_vaddr - p_offset` as the
  segment (`lookedUp_map_iff`).  The offset of a page need not lie in the segment whose
  page it is (`not_recovered`), and what is saved of gdb's list need not have the page
  (`lookedUp_gdb_iff`).
-/
import Mathlib.Algebra.Group.Nat.Defs
import Mathlib.Data.List.Pairwise
import Funtrace.Lib.Run
import Funtrace.Proof.GdbMaps

namespace Funtrace

/-! ## Maps -/

/-- The one ends before the other starts. -/
def MemoryMap.Apart (m n : MemoryMap) : Prop := m.stop ≤ n.start ∨ n.stop ≤ m.start

instance (m n : MemoryMap) : Decidable (m.Apart n) :=
  inferInstanceAs (Decidable (m.stop ≤ n.start ∨ n.stop ≤ m.start))

instance : Std.Symm MemoryMap.Apart := ⟨fun _ _ h => h.symm⟩

/-- Ranges of addresses, none of which is empty and no two of which meet. -/
structure Ranges (maps : List MemoryMap) : Prop where
  nonempty : ∀ m ∈ maps, m.start < m.stop
  apart : maps.Pairwise MemoryMap.Apart

theorem Ranges.perm {maps maps' : List MemoryMap} (h : Ranges maps) (hperm : maps'.Perm maps) :
    Ranges maps' where
  nonempty m hm := h.nonempty m (hperm.mem_iff.1 hm)
  apart := (hperm.pairwise_iff fun hmn => hmn.symm).2 h.apart

theorem Ranges.eq_of_start {maps : List MemoryMap} (h : Ranges maps) {m n : MemoryMap}
    (hm : m ∈ maps) (hn : n ∈ maps) (hstart : m.start = n.start) : m = n := by
  by_contra hne
  have hm' := h.nonempty m hm
  have hn' := h.nonempty n hn
  rcases h.apart.forall hm hn hne with hle | hle
  · rw [hstart] at hm'
    exact absurd hle (UInt64.not_le.2 hm')
  · rw [← hstart] at hn'
    exact absurd hle (UInt64.not_le.2 hn')

/-- How `findAddressInMaps` compares a map with an address. -/
def mapOrder (address : UInt64) (map : MemoryMap) : Ordering :=
  if address < map.start then .gt else if map.stop ≤ address then .lt else .eq

theorem notGreater_mapOrder {a : UInt64} {m : MemoryMap} :
    notGreater (mapOrder a) m = decide (m.start ≤ a) := by
  unfold notGreater mapOrder
  split_ifs with hlt hstop
  · simpa using hlt
  · simpa using UInt64.not_lt.1 hlt
  · simpa using UInt64.not_lt.1 hlt

theorem mapOrder_eq_iff {a : UInt64} {m : MemoryMap} :
    mapOrder a m = .eq ↔ m.start ≤ a ∧ a < m.stop := by
  unfold mapOrder
  split_ifs with hlt hstop
  · simp [UInt64.not_le.2 hlt]
  · simp [UInt64.not_lt.2 hstop]
  · simp [UInt64.not_lt.1 hlt, UInt64.not_le.1 hstop]

/-- **The map of an address** is found among sorted ranges. -/
theorem findAddressInMaps_eq {maps : List MemoryMap} (hsorted : maps.Pairwise (·.start ≤ ·.start))
    (h : Ranges maps) {m : MemoryMap} (hm : m ∈ maps) {a : UInt64} (hstart : m.start ≤ a)
    (hstop : a < m.stop) : findAddressInMaps a maps = some m := by
  have hpart : Partitioned (notGreater (mapOrder a)) maps := by
    refine hsorted.imp fun hle hn => ?_
    rw [notGreater_mapOrder, decide_eq_true_eq] at hn ⊢
    exact UInt64.le_trans hle hn
  set below := maps.filter (notGreater (mapOrder a)) with hbelow
  have hmem : m ∈ below := by
    rw [hbelow, List.mem_filter, notGreater_mapOrder, decide_eq_true_eq]
    exact ⟨hm, hstart⟩
  -- No later map starts before the address: it would begin inside of `m`.
  have hlast : below.getLast? = some m := by
    obtain ⟨ys, n, hn⟩ := (List.eq_nil_or_concat below).resolve_left (List.ne_nil_of_mem hmem)
    rw [List.concat_eq_append] at hn
    rw [hn, List.getLast?_concat, Option.some.injEq]
    have hnmem : n ∈ below := by simp [hn]
    have hnmaps := (List.mem_filter.1 hnmem).1
    have hna : n.start ≤ a := by
      simpa [notGreater_mapOrder] using (List.mem_filter.1 hnmem).2
    by_contra hne
    have hle : m.start ≤ n.start := by
      have hpair := hsorted.filter (notGreater (mapOrder a))
      rw [← hbelow, hn] at hpair
      rw [hn] at hmem
      rcases List.mem_append.1 hmem with hys | hsingle
      · exact (List.pairwise_append.1 hpair).2.2 m hys n (by simp)
      · exact absurd (List.mem_singleton.1 hsingle).symm hne
    rcases h.apart.forall hnmaps hm hne with hd | hd
    · have hnn := h.nonempty n hnmaps
      exact absurd (UInt64.le_trans hd hle) (UInt64.not_le.2 hnn)
    · exact absurd (UInt64.lt_of_lt_of_le hstop (UInt64.le_trans hd hna)) (UInt64.lt_irrefl a)
  have hsearch := binarySearchBy_eq hpart
  rw [← hbelow, hlast, Option.map_some, mapOrder_eq_iff.2 ⟨hstart, hstop⟩] at hsearch
  have hindex := hpart.getElem?_border
  rw [← hbelow, hlast, Option.some_or] at hindex
  have horder : (fun map : MemoryMap =>
      if a < map.start then Ordering.gt else if map.stop ≤ a then .lt else .eq) = mapOrder a := rfl
  unfold findAddressInMaps
  rw [horder, hsearch]
  exact hindex

theorem findAddressInMaps_mem {maps : List MemoryMap} {a : UInt64} {m : MemoryMap}
    (h : findAddressInMaps a maps = some m) : m ∈ maps ∧ m.start ≤ a ∧ a < m.stop := by
  unfold findAddressInMaps at h
  split at h
  · rename_i index hindex
    have heq := binarySearchBy_ok hindex
    rw [h, Option.map_some, Option.some.injEq] at heq
    exact ⟨List.mem_of_getElem? h, mapOrder_eq_iff.1 heq⟩
  · cases h

/-! ## The lookup -/

namespace ProcAddr2Sym
variable (w : World) {p p' : ProcAddr2Sym}

/-- The executable in whose symbol table an address is looked up, its path, and the address. -/
def lookedUp (p : ProcAddr2Sym) (procAddress : UInt64) : Option (Elf × String × UInt64) :=
  match findAddressInMaps procAddress p.maps with
  | none => none
  | some map => match map.path with
    | none => none
    | some path => match p.openExec w (substitutePath w path) with
      | (none, _) => none
      | (some elf, p) => (p.mapOffset elf map).1.map fun off =>
        (elf, substitutePath w path, procAddress - map.start + off)

theorem procAddr2Sym_eq (p : ProcAddr2Sym) (a : UInt64) :
    (p.procAddr2Sym w a).1 = match p.lookedUp w a with
      | none => unknownSymbol
      | some (elf, path, staticAddr) => symbolize w elf path staticAddr := by
  unfold procAddr2Sym lookedUp
  cases findAddressInMaps a p.maps with
  | none => rfl
  | some map =>
    cases hpath : map.path with
    | none => simp [hpath]
    | some path =>
      simp only [hpath]
      rcases p.openExec w (substitutePath w path) with ⟨_ | elf, p₁⟩
      · rfl
      · dsimp only
        rcases p₁.mapOffset elf map with ⟨_ | off, p₂⟩ <;> rfl

/-- What is done with the object after `new`. -/
inductive Action where
  | setProcMaps (data : List UInt8)
  | lookup (procAddress : UInt64)

/-- The object after an action; none after a panic. -/
def step (p : ProcAddr2Sym) : Action → Option ProcAddr2Sym
  | .setProcMaps data => setProcMaps w p data
  | .lookup a =>
    let p := (p.procAddr2Sym w a).2
    if p.panicked then none else some p

/-- The maps are in order, and the caches hold what would be found without them. -/
structure Current (p : ProcAddr2Sym) : Prop where
  sorted : p.maps.Pairwise (·.start ≤ ·.start)
  opened : ∀ path elf, p.symCache path = some elf → w.execFile path = .elf elf
  missing : ∀ path, p.symMissing path = true → w.execFile path = .missing
  offsets : ∀ start off, p.offsetCache start = some off → ∃ map ∈ p.maps, map.start = start ∧
    ∃ path elf, map.path = some path ∧ w.execFile (substitutePath w path) = .elf elf ∧
      vaddrOffset elf map = some off

variable {w}

theorem current_new : new.Current w where
  sorted := List.Pairwise.nil
  opened := by
    intro path elf h
    cases h
  missing := by
    intro path h
    cases h
  offsets := by
    intro start off h
    cases h

/-- Maps in the order in which they are looked up. -/
def sortMaps (maps : List MemoryMap) : List MemoryMap :=
  maps.insertionSort fun a b => a.start ≤ b.start

theorem setProcMaps_eq (p : ProcAddr2Sym) {data : List UInt8} {maps : List MemoryMap}
    (hparse : w.memoryMaps data = some maps) : p.setProcMaps w data =
      some { p with maps := sortMaps maps, offsetCache := fun _ => none } := by
  rw [ProcAddr2Sym.setProcMaps, hparse]
  rfl

theorem Current.setProcMaps (h : p.Current w) {data : List UInt8}
    (hset : p.setProcMaps w data = some p') : p'.Current w := by
  obtain ⟨maps, -, rfl⟩ := Option.map_eq_some_iff.1 hset
  refine ⟨?_, h.opened, h.missing, ?_⟩
  · have hsort := List.pairwise_insertionSort (fun a b : MemoryMap => a.start ≤ b.start) maps
    exact hsort
  · intro start off hoff
    cases hoff

/-- What `openExec` does: it finds the file if there is one, and panics if it cannot be parsed. -/
theorem Current.openExec (h : p.Current w) (path : String) :
    (p.openExec w path).1 = (w.execFile path).elf? ∧
      (p.openExec w path).2.panicked = (p.panicked || (w.execFile path).isUnreadable) ∧
      (p.openExec w path).2.Current w ∧ (p.openExec w path).2.maps = p.maps := by
  unfold ProcAddr2Sym.openExec
  split_ifs with hmissing
  · rw [h.missing path hmissing]
    exact ⟨rfl, (Bool.or_false _).symm, h, rfl⟩
  · cases hcache : p.symCache path with
    | some elf =>
      rw [h.opened path elf hcache]
      exact ⟨rfl, (Bool.or_false _).symm, h, rfl⟩
    | none =>
      cases hfile : w.execFile path with
      | missing =>
        refine ⟨rfl, (Bool.or_false _).symm, ⟨h.sorted, h.opened, fun path' hpath' => ?_, h.offsets⟩, rfl⟩
        by_cases heq : path' = path
        · rw [heq]
          exact hfile
        · exact h.missing path' (by simpa [Function.update_of_ne heq] using hpath')
      | unreadable => exact ⟨rfl, (Bool.or_true _).symm, ⟨h.sorted, h.opened, h.missing, h.offsets⟩, rfl⟩
      | elf elf =>
        refine ⟨rfl, (Bool.or_false _).symm, ⟨h.sorted, fun path' elf' hpath' => ?_, h.missing, h.offsets⟩, rfl⟩
        by_cases heq : path' = path
        · subst heq
          rw [hfile]
          simpa using hpath'
        · exact h.opened path' elf' (by simpa [Function.update_of_ne heq] using hpath')

variable (w) in
/-- The file of the map that contains an address opens but cannot be parsed. -/
def unreadableAt (maps : List MemoryMap) (a : UInt64) : Bool :=
  ((findAddressInMaps a maps).bind (·.path)).any fun path =>
    (w.execFile (substitutePath w path)).isUnreadable

/-- Nowhere, if every file that opens can be parsed. -/
theorem unreadableAt_eq_false (h : ∀ path, (w.execFile path).isUnreadable = false)
    (maps : List MemoryMap) (a : UInt64) : unreadableAt w maps a = false := by
  unfold unreadableAt
  cases (findAddressInMaps a maps).bind (·.path) with
  | none => rfl
  | some path => exact h _

/-- A lookup keeps the maps, and the caches right.  It panics if the file cannot be parsed. -/
theorem Current.lookup (h : p.Current w) (a : UInt64) :
    (p.procAddr2Sym w a).2.Current w ∧ (p.procAddr2Sym w a).2.maps = p.maps ∧
      (p.procAddr2Sym w a).2.panicked = (p.panicked || unreadableAt w p.maps a) := by
  unfold procAddr2Sym unreadableAt
  cases hfind : findAddressInMaps a p.maps with
  | none => exact ⟨h, rfl, (Bool.or_false _).symm⟩
  | some map =>
    rw [Option.bind_some]
    cases hpath : map.path with
    | none => exact ⟨by simpa [hpath] using h, by simp [hpath], by simp [hpath]⟩
    | some path =>
      simp only [hpath]
      rw [Option.any_some]
      obtain ⟨hfile, hpanic, hcur, hmaps⟩ := h.openExec (substitutePath w path)
      generalize p.openExec w (substitutePath w path) = r at hfile hpanic hcur hmaps
      rcases r with ⟨_ | elf, p₁⟩
      · exact ⟨hcur, hmaps, hpanic⟩
      · dsimp only [ProcAddr2Sym.mapOffset] at hfile hpanic hcur hmaps ⊢
        cases hoff : p₁.offsetCache map.start with
        | some off => exact ⟨hcur, hmaps, hpanic⟩
        | none =>
          cases hvaddr : vaddrOffset elf map with
          | none => exact ⟨hcur, hmaps, hpanic⟩
          | some off =>
            refine ⟨⟨hcur.sorted, hcur.opened, hcur.missing, fun start off' hstart => ?_⟩, hmaps, hpanic⟩
            by_cases heq : start = map.start
            · subst heq
              obtain rfl : off = off' := by simpa using hstart
              refine ⟨map, ?_, rfl, path, elf, hpath, Executable.eq_elf hfile.symm, hvaddr⟩
              rw [hmaps]
              exact (findAddressInMaps_mem hfind).1
            · exact hcur.offsets start off' (by simpa [Function.update_of_ne heq] using hstart)

/-- After a lookup that did not panic. -/
theorem lookup_of_step {a : UInt64} (h : step w p (.lookup a) = some p') :
    p' = (p.procAddr2Sym w a).2 ∧ p'.panicked = false := by
  rw [step] at h
  split_ifs at h with hpanic
  obtain rfl := Option.some.inj h
  exact ⟨rfl, by simpa using hpanic⟩

theorem current_run {acts : List Action} (hrun : runFrom (step w) new acts = some p) :
    p.Current w := by
  refine run_invariant (I := fun p => p.Current w) (P := fun _ => True) ?_ current_new
    (fun _ _ => trivial) hrun
  intro p a p' h _ hstep
  cases a with
  | setProcMaps data => exact h.setProcMaps hstep
  | lookup a =>
    obtain ⟨rfl, -⟩ := lookup_of_step hstep
    exact (h.lookup a).1

/-- After the maps were set and addresses looked up, the maps are still those. -/
theorem maps_run {before : List Action} {data : List UInt8} {maps : List MemoryMap}
    (hparse : w.memoryMaps data = some maps) {lookups : List UInt64}
    (hrun : runFrom (step w) new (before ++ .setProcMaps data :: lookups.map .lookup) = some p) :
    p.maps.Perm maps := by
  rw [runFrom_append] at hrun
  obtain ⟨p₀, hbefore, hrest⟩ := Option.bind_eq_some_iff.1 hrun
  obtain ⟨p₁, hset, hlookups⟩ := runFrom_cons hrest
  have hcur := (current_run hbefore).setProcMaps hset
  have hmaps : p₁.maps.Perm maps := by
    rw [step, setProcMaps_eq p₀ hparse, Option.some.injEq] at hset
    rw [← hset]
    exact List.perm_insertionSort _ maps
  have hkept := run_invariant (I := fun p => p.Current w ∧ p.maps = p₁.maps)
    (P := fun a => ∃ addr, a = .lookup addr) ?_ ⟨hcur, rfl⟩ ?_ hlookups
  · rw [hkept.2]
    exact hmaps
  · rintro p a p' ⟨h, heq⟩ ⟨addr, rfl⟩ hstep
    obtain ⟨rfl, -⟩ := lookup_of_step hstep
    exact ⟨(h.lookup addr).1, (h.lookup addr).2.1.trans heq⟩
  · intro a ha
    obtain ⟨addr, -, rfl⟩ := List.mem_map.1 ha
    exact ⟨addr, rfl⟩

/-- No two maps start at one address, by which the offsets are cached. -/
def OwnStarts (maps : List MemoryMap) : Prop := ∀ m ∈ maps, ∀ n ∈ maps, m.start = n.start → m = n

theorem ownStarts_sortMaps {maps : List MemoryMap} (h : OwnStarts maps) : OwnStarts (sortMaps maps) := by
  intro m hm n hn heq
  have hperm := List.perm_insertionSort (fun a b : MemoryMap => a.start ≤ b.start) maps
  exact h m (hperm.mem_iff.1 hm) n (hperm.mem_iff.1 hn) heq

theorem Current.mapOffset_eq (h : p.Current w) (hstarts : OwnStarts p.maps) {m : MemoryMap}
    (hm : m ∈ p.maps) {path : String} (hpath : m.path = some path) {elf : Elf}
    (hfile : w.execFile (substitutePath w path) = .elf elf) :
    (p.mapOffset elf m).1 = vaddrOffset elf m := by
  unfold ProcAddr2Sym.mapOffset
  cases hoff : p.offsetCache m.start with
  | none => cases vaddrOffset elf m <;> rfl
  | some off =>
    -- The offset was computed for this map: no other starts there.
    obtain ⟨map, hmem, hsame, path', elf', hpath', hfile', hvaddr⟩ := h.offsets _ _ hoff
    obtain rfl := hstarts map hmem m hm hsame
    obtain rfl : path' = path := Option.some.inj (hpath'.symm.trans hpath)
    obtain rfl : elf' = elf := Executable.elf.inj (hfile'.symm.trans hfile)
    exact hvaddr.symm

variable (w) in
/-- What an address is found in, without any cache. -/
def found (maps : List MemoryMap) (a : UInt64) : Option (Elf × String × UInt64) :=
  (findAddressInMaps a maps).bind fun m => m.path.bind fun path =>
    (w.execFile (substitutePath w path)).elf?.bind fun elf => (vaddrOffset elf m).map fun off =>
      (elf, substitutePath w path, a - m.start + off)

/-- **The caches make no difference** to what is looked up. -/
theorem Current.lookedUp_eq_found (h : p.Current w) (hstarts : OwnStarts p.maps) (a : UInt64) :
    p.lookedUp w a = found w p.maps a := by
  unfold lookedUp found
  cases hfind : findAddressInMaps a p.maps with
  | none => rfl
  | some m =>
    dsimp only
    rw [Option.bind_some]
    cases hpath : m.path with
    | none => rfl
    | some path =>
      dsimp only
      rw [Option.bind_some]
      obtain ⟨hopen, -, hcur, hmaps⟩ := h.openExec (substitutePath w path)
      generalize p.openExec w (substitutePath w path) = r at hopen hcur hmaps
      obtain ⟨elf, p₁⟩ := r
      dsimp only at hopen hcur hmaps ⊢
      rw [← hopen]
      cases elf with
      | none => rfl
      | some elf =>
        have hm : m ∈ p₁.maps := hmaps ▸ (findAddressInMaps_mem hfind).1
        dsimp only
        rw [Option.bind_some, hcur.mapOffset_eq (hmaps ▸ hstarts) hm hpath
          (Executable.eq_elf hopen.symm)]

variable (w) in
/-- What `procAddr2Sym` says of an address, without any cache. -/
def symInfoAt (maps : List MemoryMap) (a : UInt64) : SymInfo :=
  match found w maps a with
  | none => unknownSymbol
  | some (elf, path, staticAddr) => symbolize w elf path staticAddr

theorem Current.procAddr2Sym_fst (h : p.Current w) (hstarts : OwnStarts p.maps) (a : UInt64) :
    (p.procAddr2Sym w a).1 = symInfoAt w p.maps a := by
  rw [procAddr2Sym_eq, h.lookedUp_eq_found hstarts]
  rfl

/-- **What is looked up** for an address in a map. -/
theorem Current.lookedUp_eq (h : p.Current w) (hranges : Ranges p.maps) {m : MemoryMap}
    (hm : m ∈ p.maps) {a : UInt64} (hstart : m.start ≤ a) (hstop : a < m.stop) :
    p.lookedUp w a = m.path.bind fun path => (w.execFile (substitutePath w path)).elf?.bind fun elf =>
      (vaddrOffset elf m).map fun off => (elf, substitutePath w path, a - m.start + off) := by
  rw [h.lookedUp_eq_found fun m hm n hn => hranges.eq_of_start hm hn, found,
    findAddressInMaps_eq h.sorted hranges hm hstart hstop, Option.bind_some]

/-- Nothing is looked up for an address in no map of a file that is there. -/
theorem Current.lookedUp_eq_none (h : p.Current w) (hranges : Ranges p.maps) {a : UInt64}
    (hnone : ∀ m ∈ p.maps, m.start ≤ a → a < m.stop → ∀ path, m.path = some path →
      w.execFile (substitutePath w path) = .missing) : p.lookedUp w a = none := by
  cases hfind : findAddressInMaps a p.maps with
  | none =>
    unfold lookedUp
    rw [hfind]
  | some m =>
    obtain ⟨hm, hstart, hstop⟩ := findAddressInMaps_mem hfind
    rw [h.lookedUp_eq hranges hm hstart hstop]
    cases hpath : m.path with
    | none => rfl
    | some path =>
      rw [Option.bind_some, hnone m hm hstart hstop path hpath]
      rfl

/-! ## The address -/

/-- The program header by which an offset of the file is placed: the first that contains it. -/
def headerAt (phdrs : List Phdr) (offset : UInt64) : Option Phdr :=
  phdrs.find? fun phdr => phdr.pOffset ≤ offset ∧ offset < phdr.pOffset + phdr.pFilesz

/-- The offset is placed as those of the segment are. -/
def PlacedAs (phdrs : List Phdr) (offset : UInt64) (phdr : Phdr) : Prop :=
  ∃ h, headerAt phdrs offset = some h ∧ h.pVaddr - h.pOffset = phdr.pVaddr - phdr.pOffset

theorem vaddrOffset_eq {elf : Elf} {phdrs : List Phdr}
    (h : elf.programHeaders = phdrs.map Phdr.toProgramHeader) (m : MemoryMap) :
    vaddrOffset elf m = (headerAt phdrs m.offset).map fun phdr =>
      (m.offset - phdr.pOffset) + phdr.pVaddr := by
  unfold vaddrOffset headerAt
  rw [h, List.find?_map, Option.map_map]
  rfl

theorem staticAddr_iff {a base start offset : UInt64} {s h : Phdr}
    (hm : offset - start = s.pOffset - (base + s.pVaddr)) :
    a - start + ((offset - h.pOffset) + h.pVaddr) = a - base ↔
      h.pVaddr - h.pOffset = s.pVaddr - s.pOffset := by
  constructor
  · intro heq
    grind
  · intro heq
    grind

/-- **In a map that lies where the segment does**, the address is right if and only if the map
    names the segment's file, and its offset is placed as the segment is. -/
theorem lookedUp_map_iff (h : p.Current w) (hranges : Ranges p.maps) {m : MemoryMap}
    (hm : m ∈ p.maps) {a : UInt64} (hstart : m.start ≤ a) (hstop : a < m.stop) {path : String}
    {elf : Elf} (hfile : w.execFile (substitutePath w path) = .elf elf)
    {phdrs : List Phdr} (hheaders : elf.programHeaders = phdrs.map Phdr.toProgramHeader)
    {base : UInt64} {phdr : Phdr} (hlies : m.offset - m.start = phdr.pOffset - (base + phdr.pVaddr)) :
    p.lookedUp w a = some (elf, substitutePath w path, a - base) ↔
      m.path.map (substitutePath w) = some (substitutePath w path) ∧
        PlacedAs phdrs m.offset phdr := by
  rw [h.lookedUp_eq hranges hm hstart hstop]
  cases hname : m.path with
  | none => simp
  | some name =>
    rw [Option.bind_some, Option.map_some, Option.some.injEq]
    by_cases heq : substitutePath w name = substitutePath w path
    · rw [and_iff_right heq, heq, hfile, Executable.elf?, Option.bind_some, vaddrOffset_eq hheaders,
        PlacedAs]
      cases headerAt phdrs m.offset with
      | none => simp
      | some h =>
        simp only [Option.map_some, Option.some.injEq, Prod.mk.injEq, true_and, exists_eq_left']
        exact staticAddr_iff hlies
    · -- The file of another name, if there is one.
      simp only [Option.bind_eq_some_iff, Option.map_eq_some_iff, Prod.mk.injEq, heq, false_and,
        and_false, exists_false]

end ProcAddr2Sym

/-! ## Pages -/

section
variable {pageSize : UInt64}

theorem pageDown_le (x : UInt64) : pageDown pageSize x ≤ x := by
  have hmod : x % pageSize ≤ x := by
    rw [UInt64.le_iff_toNat_le, UInt64.toNat_mod]
    exact Nat.mod_le _ _
  unfold pageDown
  rw [UInt64.le_iff_toNat_le, UInt64.toNat_sub_of_le _ _ hmod]
  exact Nat.sub_le _ _

theorem pageDown_sub {x y : UInt64} (h : x % pageSize = y % pageSize) :
    pageDown pageSize x - pageDown pageSize y = x - y := by
  unfold pageDown
  rw [h]
  grind

theorem base_add_mod (hpage : pageSize.toNat ∣ 2 ^ 64) {base x : UInt64} (hbase : base % pageSize = 0) :
    (base + x) % pageSize = x % pageSize := by
  have hbase' : base.toNat % pageSize.toNat = 0 := by
    rw [← UInt64.toNat_mod, hbase]
    rfl
  rw [← UInt64.toNat_inj, UInt64.toNat_mod, UInt64.toNat_mod, UInt64.toNat_add,
    Nat.mod_mod_of_dvd _ hpage, Nat.add_mod, hbase', Nat.zero_add, Nat.mod_mod]

end

/-! ## The kinds of maps -/

namespace ProcAddr2Sym
variable {w : World} {p : ProcAddr2Sym}

theorem lookedUp_getProcmaps_iff (h : p.Current w) (hranges : Ranges p.maps) {exePath : String}
    {infos : List DlPhdrInfo} (hmaps : p.maps.Perm (getProcmaps exePath infos))
    {info : DlPhdrInfo} (hinfo : info ∈ infos) {phdr : Phdr} (hphdr : phdr ∈ info.dlpiPhdr)
    (htext : phdr.isText) {elf : Elf}
    (hfile : w.execFile (substitutePath w (info.path exePath)) = .elf elf)
    (hheaders : elf.programHeaders = info.dlpiPhdr.map Phdr.toProgramHeader) {a : UInt64}
    (hlow : info.dlpiAddr + phdr.pVaddr ≤ a) (hhigh : a < info.dlpiAddr + phdr.pVaddr + phdr.pMemsz) :
    p.lookedUp w a = some (elf, substitutePath w (info.path exePath), a - info.dlpiAddr) ↔
      PlacedAs info.dlpiPhdr phdr.pOffset phdr := by
  have hmem : ⟨info.dlpiAddr + phdr.pVaddr, info.dlpiAddr + phdr.pVaddr + phdr.pMemsz, phdr.pOffset,
      some (info.path exePath)⟩ ∈ p.maps := by
    refine hmaps.mem_iff.2 (List.mem_flatMap.2 ⟨info, hinfo, ?_⟩)
    exact List.mem_map.2 ⟨phdr, List.mem_filter.2 ⟨hphdr, htext⟩, rfl⟩
  exact (lookedUp_map_iff h hranges hmem hlow hhigh hfile hheaders rfl).trans (and_iff_right rfl)

theorem lookedUp_pages_iff {pageSize : UInt64} (hpage : pageSize.toNat ∣ 2 ^ 64) (h : p.Current w)
    (hranges : Ranges p.maps) {maps : List MemoryMap} (hmaps : p.maps.Perm maps) {base : UInt64}
    (hbase : base % pageSize = 0) {phdr : Phdr} (hphdr : phdr.pVaddr % pageSize = phdr.pOffset % pageSize)
    {path : String} (hlists : ListsPages pageSize maps base phdr path) {elf : Elf}
    (hfile : w.execFile (substitutePath w path) = .elf elf) {phdrs : List Phdr}
    (hheaders : elf.programHeaders = phdrs.map Phdr.toProgramHeader) {a : UInt64}
    (hlow : base + phdr.pVaddr ≤ a) (hhigh : a < base + phdr.pVaddr + phdr.pMemsz) :
    p.lookedUp w a = some (elf, substitutePath w path, a - base) ↔
      PlacedAs phdrs (pageDown pageSize phdr.pOffset) phdr ∧
        a < pageUp pageSize (base + phdr.pVaddr + phdr.pFilesz) := by
  by_cases hin : a < pageUp pageSize (base + phdr.pVaddr + phdr.pFilesz)
  · have hlies : pageDown pageSize phdr.pOffset - pageDown pageSize (base + phdr.pVaddr) =
        phdr.pOffset - (base + phdr.pVaddr) :=
      pageDown_sub (by rw [base_add_mod hpage hbase, hphdr])
    rw [and_iff_left hin]
    exact (lookedUp_map_iff h hranges (hmaps.mem_iff.2 hlists.mem)
      (UInt64.le_trans (pageDown_le _) hlow) hin hfile hheaders hlies).trans (and_iff_right rfl)
  · have hnone : p.lookedUp w a = none := by
      refine h.lookedUp_eq_none hranges fun m hm hstart hstop path hpath => ?_
      rw [hlists.beyond m (hmaps.mem_iff.1 hm) a hstart hstop (UInt64.not_lt.1 hin) hhigh] at hpath
      cases hpath
    rw [hnone]
    simp [hin]

/-- gdb prints the pages of a segment, those of the file as `g`.  In the line of a mapping of no
    file, the last word, if there are five, names no file either. -/
structure PrintsPages (w : World) (pathOf : List Char → Option String) (pageSize : UInt64)
    (mappings : List GdbMapping) (g : GdbMapping) (base : UInt64) (phdr : Phdr) (path : String) :
    Prop where
  lists : ListsPages pageSize (mappings.map (·.map)) base phdr path
  ranges : Ranges (mappings.map (·.map))
  mem : g ∈ mappings
  map : g.map = pageMap pageSize base phdr path
  unnamed : ∀ m ∈ mappings, m.map.path = none → ∀ word name, m.lastWords = [word] →
    pathOf word = some name → w.execFile (substitutePath w name) = .missing

/-- The line of the mapping has five words, of which the last one names the file. -/
def NamedByLine (w : World) (pathOf : List Char → Option String) (g : GdbMapping) (path : String) :
    Prop :=
  ∃ word, g.lastWords = [word] ∧ (pathOf word).map (substitutePath w) = some (substitutePath w path)

/-- In the format that the script is written for, it does if the name has no blanks. -/
theorem namedByLine {pathOf : List Char → Option String} {g : GdbMapping} {path : String}
    (hcolumns : g.columns = []) (hne : g.name ≠ []) (hblank : ∀ c ∈ g.name, ¬ isPySpace c)
    (hpath : pathOf g.name = some path) : NamedByLine w pathOf g path :=
  ⟨g.name, g.lastWords_eq hcolumns hne hblank, by rw [hpath, Option.map_some]⟩

/-- A mapping that has the address is the one of the segment's part of the file. -/
theorem PrintsPages.eq_of_contains {pathOf : List Char → Option String} {pageSize : UInt64}
    {mappings : List GdbMapping} {g : GdbMapping} {base : UInt64} {phdr : Phdr} {path : String}
    (h : PrintsPages w pathOf pageSize mappings g base phdr path) {m : GdbMapping}
    (hm : m ∈ mappings) {a : UInt64} (hstart : m.map.start ≤ a) (hstop : a < m.map.stop)
    (hstart' : g.map.start ≤ a) (hstop' : a < g.map.stop) : m = g := by
  by_contra hne
  have hapart : mappings.Pairwise fun m n => m.map.Apart n.map :=
    List.pairwise_map.1 h.ranges.apart
  have : Std.Symm fun m n : GdbMapping => m.map.Apart n.map := ⟨fun _ _ h => h.symm⟩
  rcases hapart.forall hm h.mem hne with hle | hle
  · exact absurd (UInt64.lt_of_lt_of_le hstop (UInt64.le_trans hle hstart')) (UInt64.lt_irrefl a)
  · exact absurd (UInt64.lt_of_lt_of_le hstop' (UInt64.le_trans hle hstart)) (UInt64.lt_irrefl a)

theorem lookedUp_gdb_iff {pageSize : UInt64} (hpage : pageSize.toNat ∣ 2 ^ 64) (h : p.Current w)
    (hranges : Ranges p.maps) {mappings : List GdbMapping} {pathOf : List Char → Option String}
    (hmaps : p.maps.Perm ((mappings.filterMap GdbMapping.saved).map (SavedMap.read pathOf)))
    {base : UInt64} (hbase : base % pageSize = 0) {phdr : Phdr}
    (hphdr : phdr.pVaddr % pageSize = phdr.pOffset % pageSize) {path : String} {g : GdbMapping}
    (hprints : PrintsPages w pathOf pageSize mappings g base phdr path) {elf : Elf}
    (hfile : w.execFile (substitutePath w path) = .elf elf) {phdrs : List Phdr}
    (hheaders : elf.programHeaders = phdrs.map Phdr.toProgramHeader) {a : UInt64}
    (hlow : base + phdr.pVaddr ≤ a) (hhigh : a < base + phdr.pVaddr + phdr.pMemsz) :
    p.lookedUp w a = some (elf, substitutePath w path, a - base) ↔
      NamedByLine w pathOf g path ∧ PlacedAs phdrs (pageDown pageSize phdr.pOffset) phdr ∧
        a < pageUp pageSize (base + phdr.pVaddr + phdr.pFilesz) := by
  by_cases hin : a < pageUp pageSize (base + phdr.pVaddr + phdr.pFilesz)
  · rw [and_iff_left hin]
    have hstart : g.map.start ≤ a := by
      rw [hprints.map]
      exact UInt64.le_trans (pageDown_le _) hlow
    have hstop : a < g.map.stop := by
      rw [hprints.map]
      exact hin
    by_cases hsaved : ∃ word, g.lastWords = [word]
    · obtain ⟨word, hword⟩ := hsaved
      have hmem : { g.map with path := pathOf word } ∈ p.maps :=
        hmaps.mem_iff.2 (mem_read_iff.2 ⟨g, hprints.mem, word, hword, rfl⟩)
      have hnamed : NamedByLine w pathOf g path ↔
          (pathOf word).map (substitutePath w) = some (substitutePath w path) := by
        simp [NamedByLine, hword]
      have hlies : g.map.offset - g.map.start = phdr.pOffset - (base + phdr.pVaddr) := by
        rw [hprints.map]
        exact pageDown_sub (by rw [base_add_mod hpage hbase, hphdr])
      rw [lookedUp_map_iff h hranges hmem hstart hstop hfile hheaders hlies, hnamed, hprints.map]
      rfl
    · -- Nothing is saved of the mapping, and no other has the address.
      have hnone : p.lookedUp w a = none := by
        refine h.lookedUp_eq_none hranges fun n hn hn₁ hn₂ name hname => ?_
        obtain ⟨m, hm, word, hword, rfl⟩ := mem_read_iff.1 (hmaps.mem_iff.1 hn)
        obtain rfl := hprints.eq_of_contains hm hn₁ hn₂ hstart hstop
        exact absurd ⟨word, hword⟩ hsaved
      rw [hnone]
      simp only [reduceCtorEq, false_iff, not_and]
      rintro ⟨word, hword, -⟩
      exact absurd ⟨word, hword⟩ hsaved
  · have hnone : p.lookedUp w a = none := by
      refine h.lookedUp_eq_none hranges fun n hn hn₁ hn₂ name hname => ?_
      obtain ⟨m, hm, word, hword, rfl⟩ := mem_read_iff.1 (hmaps.mem_iff.1 hn)
      have hpath := hprints.lists.beyond m.map (List.mem_map_of_mem hm) a hn₁ hn₂
        (UInt64.not_lt.1 hin) hhigh
      exact hprints.unnamed m hm hpath word name hword hname
    rw [hnone]
    simp [hin]

/-- **Recovery of static addresses.**  After the maps of a process were set and any addresses looked
    up, the address looked up for `a` in an executable segment is `a` less the load base if and
    only if the segment's offset in the maps is placed as the segment is: its `p_offset` in the
    runtime's list, its first page in the kernel's, which has to have the page of `a`.  In what is
    saved of gdb's list, the line of the mapping has to name the file, too. -/
theorem recovered_iff {pageSize : UInt64} (hpage : pageSize.toNat ∣ 2 ^ 64) {exePath : String}
    {info : DlPhdrInfo} {phdr : Phdr} (hphdr : phdr ∈ info.dlpiPhdr) (htext : phdr.isText) {elf : Elf}
    (hfile : w.execFile (substitutePath w (info.path exePath)) = .elf elf)
    (hheaders : elf.programHeaders = info.dlpiPhdr.map Phdr.toProgramHeader)
    {before : List Action} {data : List UInt8} {lookups : List UInt64} {maps : List MemoryMap}
    (hparse : w.memoryMaps data = some maps) (hranges : Ranges maps)
    (hrun : runFrom (step w) new (before ++ .setProcMaps data :: lookups.map .lookup) = some p)
    {a : UInt64} (hlow : info.dlpiAddr + phdr.pVaddr ≤ a)
    (hhigh : a < info.dlpiAddr + phdr.pVaddr + phdr.pMemsz) :
    (∀ infos, info ∈ infos → maps = getProcmaps exePath infos →
      (p.lookedUp w a = some (elf, substitutePath w (info.path exePath), a - info.dlpiAddr) ↔
        PlacedAs info.dlpiPhdr phdr.pOffset phdr)) ∧
    (ListsPages pageSize maps info.dlpiAddr phdr (info.path exePath) →
      info.dlpiAddr % pageSize = 0 → phdr.pVaddr % pageSize = phdr.pOffset % pageSize →
      (p.lookedUp w a = some (elf, substitutePath w (info.path exePath), a - info.dlpiAddr) ↔
        PlacedAs info.dlpiPhdr (pageDown pageSize phdr.pOffset) phdr ∧
          a < pageUp pageSize (info.dlpiAddr + phdr.pVaddr + phdr.pFilesz))) ∧
    (∀ pathOf mappings text saved g, InfoProcMappings mappings text →
      writeProcMaps text = some saved → data = savedData saved →
      maps = saved.map (SavedMap.read pathOf) →
      PrintsPages w pathOf pageSize mappings g info.dlpiAddr phdr (info.path exePath) →
      info.dlpiAddr % pageSize = 0 → phdr.pVaddr % pageSize = phdr.pOffset % pageSize →
      (p.lookedUp w a = some (elf, substitutePath w (info.path exePath), a - info.dlpiAddr) ↔
        NamedByLine w pathOf g (info.path exePath) ∧
          PlacedAs info.dlpiPhdr (pageDown pageSize phdr.pOffset) phdr ∧
            a < pageUp pageSize (info.dlpiAddr + phdr.pVaddr + phdr.pFilesz))) := by
  have hcur := current_run hrun
  have hperm := maps_run hparse hrun
  have hranges' := hranges.perm hperm
  refine ⟨?_, ?_, ?_⟩
  · rintro infos hinfo rfl
    exact lookedUp_getProcmaps_iff hcur hranges' hperm hinfo hphdr htext hfile hheaders hlow hhigh
  · intro hlists hbase haligned
    exact lookedUp_pages_iff hpage hcur hranges' hperm hbase haligned hlists hfile hheaders hlow hhigh
  · rintro pathOf mappings text saved g htext' hwrite - rfl hprints hbase haligned
    rw [writeProcMaps_eq htext', Option.some.injEq] at hwrite
    subst hwrite
    exact lookedUp_gdb_iff hpage hcur hranges' hperm hbase haligned hprints hfile hheaders hlow hhigh

/-! ## Two images -/

/-- Constants, and 0x1c0 bytes of code right after them in the file. -/
def packedImage : DlPhdrInfo where
  dlpiAddr := 0x555555554000
  dlpiName := ""
  dlpiPhdr := [⟨⟨0, 0, 0x5ac⟩, 1, 4, 0x5ac⟩, ⟨⟨0x5b0, 0x15b0, 0x1c0⟩, 1, 5, 0x1c0⟩]

/-- The code of `packedImage`. -/
def packedText : Phdr := ⟨⟨0x5b0, 0x15b0, 0x1c0⟩, 1, 5, 0x1c0⟩

/-- The file of `packedImage`. -/
def packedElf : Elf where
  dynsyms := []
  syms := [⟨0x15b0, 0x1c0, "main"⟩]
  programHeaders := packedImage.dlpiPhdr.map Phdr.toProgramHeader
  findLocation _ := none
  findFrames _ := none

/-- What the kernel has mapped of it. -/
def packedKernelMaps : List MemoryMap :=
  [⟨0x555555554000, 0x555555555000, 0, some "prog"⟩, ⟨0x555555555000, 0x555555556000, 0, some "prog"⟩]

/-- The text of the runtime's list. -/
def packedProcmaps : List UInt8 := "5555555555b0-555555555770 r-xp 5b0 0:0 0 prog\n".toUTF8.toList

/-- The text of the kernel's list. -/
def packedKernelText : List UInt8 :=
  ("555555554000-555555555000 r--p 00000000 103:07 1234 prog\n" ++
    "555555555000-555555556000 r-xp 00000000 103:07 1234 prog\n").toUTF8.toList

/-- An object with its code in a page of its own, which gdb tells of. -/
def pagedImage : DlPhdrInfo where
  dlpiAddr := 0x7ffff7fc0000
  dlpiName := "/lib/ld.so"
  dlpiPhdr := [⟨⟨0, 0, 0x5ac⟩, 1, 4, 0x5ac⟩, ⟨⟨0x1000, 0x1000, 0x1c0⟩, 1, 5, 0x1c0⟩]

/-- The code of `pagedImage`. -/
def pagedText : Phdr := ⟨⟨0x1000, 0x1000, 0x1c0⟩, 1, 5, 0x1c0⟩

/-- The file of `pagedImage`. -/
def pagedElf : Elf := { packedElf with programHeaders := pagedImage.dlpiPhdr.map Phdr.toProgramHeader }

/-- The line of the code in the list that gdb prints. -/
def pagedMapping : GdbMapping :=
  ⟨⟨0x7ffff7fc1000, 0x7ffff7fc2000, 0x1000, some "/lib/ld.so"⟩, [], "/lib/ld.so".toList⟩

/-- The mappings that gdb prints. -/
def pagedMappings : List GdbMapping :=
  [⟨⟨0x7ffff7fc0000, 0x7ffff7fc1000, 0, some "/lib/ld.so"⟩, [], "/lib/ld.so".toList⟩, pagedMapping,
    ⟨⟨0x7ffffffde000, 0x7ffffffff000, 0, none⟩, [], "[stack]".toList⟩]

/-- The text of `info proc mappings`. -/
def pagedGdbText : List Char :=
  "Mapped address spaces:\n\n".toList ++ "  Start Addr  End Addr  Size  Offset objfile\n".toList ++
    "  0x7ffff7fc0000 0x7ffff7fc1000  0x1000    0x0 /lib/ld.so\n".toList ++
    "  0x7ffff7fc1000 0x7ffff7fc2000  0x1000 0x1000 /lib/ld.so\n".toList ++
    "  0x7ffffffde000 0x7ffffffff000 0x21000    0x0 [stack]\n".toList

/-- The text that is saved of gdb's list. -/
def pagedSavedText : List UInt8 :=
  "7ffff7fc0000-7ffff7fc1000 r-xp 00000000 0:0 0 /lib/ld.so\n".toUTF8.toList ++
    "7ffff7fc1000-7ffff7fc2000 r-xp 00001000 0:0 0 /lib/ld.so\n".toUTF8.toList ++
    "7ffffffde000-7ffffffff000 r-xp 00000000 0:0 0 [stack]\n".toUTF8.toList

/-- Names in brackets are no paths. -/
def pathOfName (name : List Char) : Option String :=
  if name.head? = some '[' then none else some (String.ofList name)

/-- The decoder's surroundings, with a parser that knows these three texts. -/
def packedWorld : World where
  execFile path :=
    if path = "prog" then .elf packedElf
    else if path = "/lib/ld.so" then .elf pagedElf
    else .missing
  demangle _ := none
  subsPath := []
  memoryMaps data :=
    if data = packedProcmaps then some (getProcmaps "prog" [packedImage])
    else if data = packedKernelText then some packedKernelMaps
    else if data = pagedSavedText then some (pagedMappings.map (·.map))
    else none
  sourceFile _ := none

theorem ranges_paged : Ranges (pagedMappings.map (·.map)) := ⟨by decide, by decide⟩

theorem prints_paged : PrintsPages packedWorld pathOfName 4096 pagedMappings pagedMapping
    pagedImage.dlpiAddr pagedText "/lib/ld.so" where
  lists := by
    refine ⟨by decide, fun m hm a hstart hstop hup hhigh => ?_⟩
    exact absurd (UInt64.lt_of_lt_of_le hhigh (UInt64.le_trans (by decide) hup)) (UInt64.lt_irrefl a)
  ranges := ranges_paged
  mem := by simp [pagedMappings]
  map := by decide
  unnamed m hm hpath word name hword hname := by
    simp only [pagedMappings, pagedMapping, List.mem_cons, List.not_mem_nil, or_false] at hm
    rcases hm with rfl | rfl | rfl
    · cases hpath
    · cases hpath
    · obtain rfl : "[stack]".toList = word := by
        have hlast : GdbMapping.lastWords
            ⟨⟨0x7ffffffde000, 0x7ffffffff000, 0, none⟩, [], "[stack]".toList⟩ = ["[stack]".toList] := by
          decide
        rw [hlast] at hword
        exact List.singleton_inj.1 hword
      cases hname

theorem memoryMaps_packed :
    packedWorld.memoryMaps packedProcmaps = some (getProcmaps "prog" [packedImage]) := if_pos rfl

theorem memoryMaps_paged :
    packedWorld.memoryMaps pagedSavedText = some (pagedMappings.map (·.map)) :=
  (if_neg (by decide +kernel)).trans ((if_neg (by decide +kernel)).trans (if_pos rfl))

theorem ranges_packed : Ranges (getProcmaps "prog" [packedImage]) :=
  ⟨by decide, List.pairwise_singleton _ _⟩

theorem infoProcMappings_paged : InfoProcMappings pagedMappings pagedGdbText := by
  unfold InfoProcMappings
  decide +kernel

/-- What the script saves is the text that the parser knows. -/
theorem savedData_paged : pagedSavedText = savedData (pagedMappings.filterMap GdbMapping.saved) := by
  decide +kernel

theorem read_paged : pagedMappings.map (·.map) =
    (pagedMappings.filterMap GdbMapping.saved).map (SavedMap.read pathOfName) := by
  decide +kernel

theorem named_paged : NamedByLine packedWorld pathOfName pagedMapping "/lib/ld.so" := by
  have hblank : pagedMapping.name.all (!isPySpace ·) = true := by decide
  exact namedByLine rfl (by decide) (fun c hc => by simpa using List.all_eq_true.1 hblank c hc) rfl

/-- The runtime's list, and what is saved of gdb's. -/
theorem recovered_iff_demo :
    let w := packedWorld
    (∃ p, runFrom (step w) new [.setProcMaps packedProcmaps, .lookup 0x555555555600] = some p ∧
      p.lookedUp w 0x5555555555b4 = some (packedElf, "prog", 0x15b4)) ∧
    ∃ p, runFrom (step w) new [.setProcMaps pagedSavedText] = some p ∧
      p.lookedUp w 0x7ffff7fc1010 = some (pagedElf, "/lib/ld.so", 0x1010) := by
  intro w
  constructor
  · obtain ⟨p, hrun⟩ : ∃ p,
        runFrom (step w) new [.setProcMaps packedProcmaps, .lookup 0x555555555600] = some p := by
      rw [runFrom, step, setProcMaps_eq _ memoryMaps_packed]
      exact ⟨_, rfl⟩
    refine ⟨p, hrun, ?_⟩
    have hmem : packedText ∈ packedImage.dlpiPhdr := by simp [packedImage, packedText]
    have hfile : w.execFile (substitutePath w (packedImage.path "prog")) = .elf packedElf := rfl
    have hrecovered := @recovered_iff w p 4096 (by decide) "prog" packedImage packedText hmem (by decide)
      packedElf hfile rfl [] packedProcmaps [0x555555555600] _ memoryMaps_packed ranges_packed hrun
      0x5555555555b4 (by decide) (by decide)
    exact (hrecovered.1 [packedImage] (by simp) rfl).2 ⟨packedText, rfl, rfl⟩
  · obtain ⟨p, hrun⟩ : ∃ p, runFrom (step w) new [.setProcMaps pagedSavedText] = some p := by
      rw [runFrom, step, setProcMaps_eq _ memoryMaps_paged]
      exact ⟨_, rfl⟩
    refine ⟨p, hrun, ?_⟩
    have hmem : pagedText ∈ pagedImage.dlpiPhdr := by simp [pagedImage, pagedText]
    have hfile : w.execFile (substitutePath w (pagedImage.path "prog")) = .elf pagedElf := rfl
    have hrecovered := @recovered_iff w p 4096 (by decide) "prog" pagedImage pagedText hmem (by decide)
      pagedElf hfile rfl [] pagedSavedText [] _ memoryMaps_paged ranges_paged hrun 0x7ffff7fc1010
      (by decide) (by decide)
    have hgdb := hrecovered.2.2 pathOfName pagedMappings pagedGdbText _ pagedMapping
      infoProcMappings_paged (writeProcMaps_eq infoProcMappings_paged) savedData_paged read_paged
      prints_paged (by decide) (by decide)
    exact hgdb.2 ⟨named_paged, ⟨pagedText, rfl, rfl⟩, by decide⟩

/-- In the kernel's list the code starts with a page of the file that is also one of the constants:
    all addresses come out a page too low. -/
theorem not_recovered :
    let w := packedWorld
    ListsPages 4096 packedKernelMaps packedImage.dlpiAddr packedText "prog" ∧
      (packedImage.dlpiPhdr.Pairwise fun s t =>
        s.pVaddr + s.pMemsz ≤ t.pVaddr ∧ s.pOffset + s.pFilesz ≤ t.pOffset) ∧
      (∀ phdr ∈ packedImage.dlpiPhdr, phdr.pVaddr % 4096 = phdr.pOffset % 4096) ∧
      ∃ p, runFrom (step w) new [.setProcMaps packedKernelText] = some p ∧
        p.lookedUp w 0x5555555555b4 = some (packedElf, "prog", 0x5b4) ∧
          (0x5b4 : UInt64) ≠ 0x5555555555b4 - packedImage.dlpiAddr := by
  intro w
  have hparse : w.memoryMaps packedKernelText = some packedKernelMaps :=
    (if_neg (by decide +kernel)).trans (if_pos rfl)
  have hrun : runFrom (step w) new [.setProcMaps packedKernelText] =
      some { new with maps := packedKernelMaps } := by
    rw [runFrom, step, setProcMaps_eq _ hparse]
    rfl
  refine ⟨⟨?_, ?_⟩, ?_, ?_, _, hrun, rfl, by decide⟩
  · decide
  · intro m hm a hstart hstop hup hhigh
    exact absurd (UInt64.lt_of_lt_of_le hhigh (UInt64.le_trans (by decide) hup)) (UInt64.lt_irrefl a)
  · simp only [packedImage, List.pairwise_cons]
    decide
  · simp only [packedImage]
    decide

end ProcAddr2Sym

end Funtrace
