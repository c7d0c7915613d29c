/-
  Call counts (`funcount.cpp`): tables of pages of counts, one for some of the cores.

  A page of a table has the counts of 64K of addresses, in slots of 8 bytes; calls of
  functions in no page are counted as unknown.  `funcount_init` and `dlopen` allocate
  the pages of all executable segments, in every table; `__cyg_profile_func_enter`
  counts in the table of its core.  At exit the tables are destroyed from the last to
  the first: each adds its counts to the first, which writes the report.

  A program is a machine whose steps are the calls and the allocations of one page.
  `none` is a step that is not enabled, or a failed assertion.
-/
import Mathlib.Algebra.Group.Nat.Defs
import Funtrace.Lib.Run
import Funtrace.Runtime.ProcMaps

namespace Funtrace

namespace Funcount

/-! ## Addresses -/

/-- `PAGE_BITS`. -/
def pageBits : UInt64 := 16

/-- `PAGE_SIZE`. -/
def pageSize : UInt64 := 1 <<< pageBits

/-- `PAGE_BITS_MASK`. -/
def pageBitsMask : UInt64 := pageSize - 1

/-- `none`: the pointer has more than 48 bits set. -/
def highBits (address : UInt64) : Option UInt64 :=
  let bits := address >>> (pageBits * 2)
  if bits &&& pageBitsMask = bits then some bits else none

/-- `mid_bits`. -/
def midBits (address : UInt64) : UInt64 := (address >>> pageBits) &&& pageBitsMask

/-- `low_bits`. -/
def lowBits (address : UInt64) : UInt64 := address &&& pageBitsMask

/-- `sizeof(count_t)`. -/
def countSize : UInt64 := 8

/-! ## Tables -/

/-- The counts from index 0 to `PAGE_SIZE/sizeof(count_t)`. -/
structure CountsPage where
  counts : UInt64 → UInt64

/-- `CountsPagesL1`: the pages of 2^32 bytes of code. -/
structure CountsPagesL1 where
  pages : UInt64 → Option CountsPage

/-- `CountsPagesL2`: the pages of all code, and the counter of the calls that have none. -/
structure CountsPagesL2 where
  pagesL1 : UInt64 → Option CountsPagesL1
  unknown : UInt64

/-- What `get_count` returns a reference to. -/
inductive CountRef where
  | unknown
  | slot (high mid index : UInt64)

namespace CountsPagesL2

/-- `CountsPagesL2::init`. -/
def init : CountsPagesL2 := ⟨fun _ => none, 0⟩

variable (t : CountsPagesL2)

/-- The body of the loop of `allocate_range`. -/
def allocatePage (address : UInt64) : Option CountsPagesL2 :=
  (highBits address).map fun high =>
    let pages := (t.pagesL1 high).getD ⟨fun _ => none⟩
    let mid := midBits address
    let page := (pages.pages mid).getD ⟨fun _ => 0⟩
    { t with pagesL1 :=
        Function.update t.pagesL1 high (some ⟨Function.update pages.pages mid (some page)⟩) }

/-- `get_count`; none where the address is too high. -/
def getCount (address : UInt64) : Option CountRef :=
  (highBits address).map fun high =>
    match t.pagesL1 high with
    | none => .unknown
    | some pages =>
      match pages.pages (midBits address) with
      | none => .unknown
      | some _ => .slot high (midBits address) (lowBits address / countSize)

/-- `count += n`. -/
def increase (n : UInt64) : CountRef → CountsPagesL2
  | .unknown => { t with unknown := t.unknown + n }
  | .slot high mid index =>
    { t with pagesL1 := Function.update t.pagesL1 high <| (t.pagesL1 high).map fun pages =>
        ⟨Function.update pages.pages mid <| (pages.pages mid).map fun page =>
          ⟨Function.update page.counts index (page.counts index + n)⟩⟩ }

/-- `for(uint64_t i=0; i<n; ++i)`. -/
def upTo (n : UInt64) : List UInt64 := (List.range n.toNat).map Nat.toUInt64

/-- The counts that the loops of the destructor find, with their addresses. -/
def entries : List (UInt64 × UInt64) :=
  (upTo pageSize).flatMap fun hi =>
    match t.pagesL1 hi with
    | none => []
    | some pages => (upTo pageSize).flatMap fun mid =>
      match pages.pages mid with
      | none => []
      | some page => (upTo (pageSize / countSize)).filterMap fun lo =>
        if page.counts lo = 0 then none
        else some ((hi <<< (pageBits * 2)) ||| (mid <<< pageBits) ||| (lo * countSize), page.counts lo)

/-- The destructor of a table that is not the first, whose counts go to the first. -/
def mergeInto (last : CountsPagesL2) : Option CountsPagesL2 :=
  let merged := t.entries.foldlM
    (fun (last : CountsPagesL2) e => (last.getCount e.1).map (last.increase e.2)) last
  merged.map fun last =>
    if t.unknown = 0 then last else { last with unknown := last.unknown + t.unknown }

end CountsPagesL2

/-- `funcount.txt`: addresses of slots with their counts; and the number of unknown calls, which is
    printed. -/
structure Report where
  counts : List (UInt64 × UInt64)
  unknown : UInt64

/-! ## The program -/

/-- The addresses that the loop of `allocate_range` goes over. -/
def rangeAddresses (base size : UInt64) : List UInt64 :=
  let start := base &&& ~~~pageBitsMask
  let stop := (base + size + pageSize - 1) &&& ~~~pageBitsMask
  if start ≤ stop then
    (CountsPagesL2.upTo ((stop - start) / pageSize + 1)).map fun i => start + i * pageSize
  else []

/-- `g_page_tab`, and the pages that the running `dl_iterate_phdr` has yet to allocate, with the
    numbers of the tables. -/
structure Program where
  pageTab : ℕ → CountsPagesL2
  allocating : List (ℕ × UInt64)

/-- The steps that a counted program takes. -/
inductive Action where
  | funcountInit (infos : List DlPhdrInfo)
  /-- `dlopen` or `dlmopen` has loaded an object -/
  | dlopen (infos : List DlPhdrInfo)
  | allocatePage
  /-- `__cyg_profile_func_enter`; `aux` is of `rdtscp` -/
  | enter (aux : UInt32) (func : UInt64)

/-- `core_num`. -/
def coreNum (aux : UInt32) : UInt32 := aux &&& 0xfff

namespace Program

/-- Before anything runs: static storage. -/
def start : Program := ⟨fun _ => .init, []⟩

variable (pageTables : ℕ)

/-- `allocate_page_tables`, whose callback allocates a segment in all tables. -/
def pageAllocations (infos : List DlPhdrInfo) : List (ℕ × UInt64) :=
  infos.flatMap fun info => (info.dlpiPhdr.filter Phdr.isText).flatMap fun phdr =>
    (List.range pageTables).flatMap fun t =>
      (rangeAddresses (info.dlpiAddr + phdr.pVaddr) phdr.pMemsz).map fun address => (t, address)

/-- The number of the table that a call is counted in. -/
def tabInd (aux : UInt32) : ℕ := if pageTables = 1 then 0 else (coreNum aux).toNat % pageTables

/-- What an action does; `none` if it is not enabled. -/
def step (s : Program) : Action → Option Program
  | .funcountInit infos =>
    if s.allocating.isEmpty then some ⟨fun _ => .init, pageAllocations pageTables infos⟩ else none
  | .dlopen infos =>
    if s.allocating.isEmpty then some { s with allocating := pageAllocations pageTables infos }
    else none
  | .allocatePage =>
    match s.allocating with
    | [] => none
    | (t, address) :: rest => ((s.pageTab t).allocatePage address).map fun tab =>
      ⟨Function.update s.pageTab t tab, rest⟩
  | .enter aux func =>
    let t := tabInd pageTables aux
    ((s.pageTab t).getCount func).map fun count =>
      { s with pageTab := Function.update s.pageTab t ((s.pageTab t).increase 1 count) }

/-- The destructors of the tables. -/
def finish (s : Program) : Option Report :=
  ((List.range' 1 (pageTables - 1)).reverse.foldlM (fun last t => (s.pageTab t).mergeInto last)
    (s.pageTab 0)).map fun last => ⟨last.entries, last.unknown⟩

end Program

end Funcount

end Funtrace
