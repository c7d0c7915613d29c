/-
  The maps of a process as the PROCMAPS data list them.

  The runtime lists the executable segments that `dl_iterate_phdr` finds
  (`phdr_callback` in `funtrace.cpp`); `funcount.cpp` saves `/proc/self/maps`, whose
  lines are the mappings that the kernel has made of whole pages; `funtrace_gdb.py` saves
  what it finds of them in the text of gdb's `info proc mappings` (`write_proc_maps`).

  A line of the runtime's list or the kernel's is given by the values that it says, what
  is saved of gdb's list also by its text.
-/
import Funtrace.Lib.Python
import Funtrace.Lib.Utf8
import Funtrace.Viz.ProcAddr2Sym

namespace Funtrace

/-! ## Segments -/

/-- `ElfW(Phdr)`: the file's program header, and what else the loader reads in it. -/
structure Phdr extends ProgramHeader where
  pType : UInt32
  pFlags : UInt32
  pMemsz : UInt64

/-- `PT_LOAD`, with `PF_X`: the likes of .text. -/
def Phdr.isText (phdr : Phdr) : Bool := phdr.pType = 1 ∧ phdr.pFlags &&& 1 ≠ 0

/-- `dl_phdr_info`. -/
structure DlPhdrInfo where
  dlpiAddr : UInt64
  dlpiName : String
  dlpiPhdr : List Phdr

/-- The path that stands in the maps: that of the executable is not in `dlpi_name`. -/
def DlPhdrInfo.path (exePath : String) (info : DlPhdrInfo) : String :=
  if info.dlpiName.isEmpty then exePath else info.dlpiName

/-! ## The runtime's list -/

/-- The lines that `phdr_callback` writes for an object. -/
def phdrCallback (exePath : String) (info : DlPhdrInfo) : List MemoryMap :=
  (info.dlpiPhdr.filter Phdr.isText).map fun phdr =>
    { start := info.dlpiAddr + phdr.pVaddr
      stop := info.dlpiAddr + phdr.pVaddr + phdr.pMemsz
      offset := phdr.pOffset
      path := some (info.path exePath) }

/-- `get_procmaps`. -/
def getProcmaps (exePath : String) (infos : List DlPhdrInfo) : List MemoryMap :=
  infos.flatMap (phdrCallback exePath)

/-! ## The kernel's list -/

section
variable (pageSize : UInt64)

/-- The first address of a page. -/
def pageDown (x : UInt64) : UInt64 := x - x % pageSize

/-- The first address of a page that is not below `x`. -/
def pageUp (x : UInt64) : UInt64 := pageDown pageSize (x + (pageSize - 1))

/-- The mapping that the loader asks for a segment's part of the file: whole pages of both. -/
def pageMap (base : UInt64) (phdr : Phdr) (path : String) : MemoryMap where
  start := pageDown pageSize (base + phdr.pVaddr)
  stop := pageUp pageSize (base + phdr.pVaddr + phdr.pFilesz)
  offset := pageDown pageSize phdr.pOffset
  path := some path

/-- `maps` has the pages of a segment: those of the file, and beyond them none of a file. -/
structure ListsPages (maps : List MemoryMap) (base : UInt64) (phdr : Phdr) (path : String) : Prop where
  mem : pageMap pageSize base phdr path ∈ maps
  beyond : ∀ m ∈ maps, ∀ a, m.start ≤ a → a < m.stop →
    pageUp pageSize (base + phdr.pVaddr + phdr.pFilesz) ≤ a →
      a < base + phdr.pVaddr + phdr.pMemsz → m.path = none

end

/-! ## gdb's list -/

/-- What `write_proc_maps` writes of a mapping. -/
structure SavedMap where
  start : ℤ
  stop : ℤ
  offset : ℤ
  path : List Char
deriving DecidableEq

/-- What `write_proc_maps` saves of a line, which is nothing if it does not begin with `0x` or does
    not have five words.  `none` is a `ValueError`. -/
def saveMapping (line : List Char) : Option (List SavedMap) :=
  let line := strip isPySpace line
  if "0x".toList.isPrefixOf line then
    match words isPySpace line with
    | [start, stop, _, offset, path] =>
      (intHex start).bind fun start => (intHex stop).bind fun stop =>
        (intHex offset).map fun offset => [⟨start, stop, offset, path⟩]
    | _ => some []
  else some []

/-- The loop of `write_proc_maps`. -/
def saveMappings : List (List Char) → Option (List SavedMap)
  | [] => some []
  | line :: lines => (saveMapping line).bind fun saved => (saveMappings lines).map (saved ++ ·)

/-- `write_proc_maps`, where gdb answers `mappings` to `info proc mappings`. -/
def writeProcMaps (mappings : List Char) : Option (List SavedMap) :=
  saveMappings ((strip isPySpace mappings).splitOn '\n')

/-- The line that is written of a mapping.  A short address gets blanks before it. -/
def SavedMap.line (m : SavedMap) : List Char :=
  (formatHex 0 m.start).leftpad 10 ' ' ++ '-' :: (formatHex 0 m.stop).leftpad 10 ' ' ++
    " r-xp ".toList ++ formatHex 8 m.offset ++ " 0:0 0 ".toList ++ m.path ++ ['\n']

/-- The data of the chunk that `write_proc_maps` writes. -/
def savedData (saved : List SavedMap) : List UInt8 :=
  utf8Bytes (String.ofList (saved.flatMap SavedMap.line))

/-- What is read of a saved line by a parser that takes a name for a path, or for something else. -/
def SavedMap.read (pathOf : List Char → Option String) (m : SavedMap) : MemoryMap where
  start := UInt64.ofInt m.start
  stop := UInt64.ofInt m.stop
  offset := UInt64.ofInt m.offset
  path := pathOf m.path

/-- A mapping as gdb prints it. -/
structure GdbMapping where
  map : MemoryMap
  /-- the words between the offset and the name: none in the format that `funtrace_gdb.py` is
      written for, the permissions in newer versions -/
  columns : List (List Char)
  /-- the name that the kernel gives to the mapping, empty if there is none -/
  name : List Char

namespace GdbMapping
variable (m : GdbMapping)

/-- The words after the offset. -/
def lastWords : List (List Char) := m.columns ++ words isPySpace m.name

/-- The words of the line. -/
def lineWords : List (List Char) :=
  hexWord m.map.start.toNat :: hexWord m.map.stop.toNat ::
    hexWord (m.map.stop - m.map.start).toNat :: hexWord m.map.offset.toNat :: m.lastWords

end GdbMapping

/-- The text of `info proc mappings`: each mapping has a line, and the others do not begin with
    `0x`. -/
def InfoProcMappings (mappings : List GdbMapping) (text : List Char) : Prop :=
  ((((strip isPySpace text).splitOn '\n').map (strip isPySpace)).filter
    ("0x".toList.isPrefixOf ·)).map (words isPySpace) = mappings.map GdbMapping.lineWords

end Funtrace
