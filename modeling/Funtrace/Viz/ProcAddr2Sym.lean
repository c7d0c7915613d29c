/-
  Symbol lookup (`procaddr2sym/src/lib.rs`): from an address of the traced
  process to the function, file and line it belongs to.

  The object keeps three caches: the parsed executables by path, the paths that
  could not be opened, and the load offset of each map by its start address.
  The first two live as long as the object, the offsets until the next
  `setProcMaps`.  What the lookup reads outside the repository (the ELF files,
  DWARF, the demangler, the parser of `/proc/self/maps`) is a `World`.

  A file that opens but cannot be parsed makes the lookup panic.  That is noted in
  `panicked`; what is computed after a panic is never used.

  * `stripClone` drops a ` [clone .whatever]` suffix from a name;
  * `findSymbol` and `findAddressInMaps` are the binary searches;
  * `procAddr2Sym` is the lookup, `setProcMaps` the change of maps.
-/
import Mathlib.Data.List.Basic
import Mathlib.Data.List.Infix
import Mathlib.Data.List.Sort
import Mathlib.Logic.Function.Basic
import Funtrace.Lib.BinarySearch

namespace Funtrace

/-! ## The data -/

/-- What is known of the function at an address. -/
structure SymInfo where
  func : String
  demangledFunc : String
  file : String
  line : ℕ
  executableFile : String
  staticAddr : UInt64
  size : UInt64
deriving DecidableEq, Repr, Inhabited

/-- An entry of a symbol table. -/
structure Symbol where
  baseAddress : UInt64
  size : UInt64
  name : String

/-- The fields of a program header that place offsets of the file. -/
structure ProgramHeader where
  pOffset : UInt64
  pVaddr : UInt64
  pFilesz : UInt64

/-- A line of `/proc/self/maps`; `path` is there for `MMapPath::Path` only. -/
structure MemoryMap where
  start : UInt64
  stop : UInt64
  offset : UInt64
  path : Option String
deriving DecidableEq

/-- An executable or shared object as `goblin` and `addr2line` present it. -/
structure Elf where
  dynsyms : List Symbol
  syms : List Symbol
  programHeaders : List ProgramHeader
  /-- `find_location`: file and line of an address -/
  findLocation : UInt64 → Option (Option String × Option ℕ)
  /-- the function of the last of `find_frames`: raw and demangled name -/
  findFrames : UInt64 → Option (Option String × Option String)

/-- What comes of opening and parsing the file at a path. -/
inductive Executable where
  /-- `File::open` fails -/
  | missing
  /-- the file opens, but `fs::metadata`, `Mmap::map`, `Elf::parse`, `object::File::parse` or
      `addr2line::Context::new` fails -/
  | unreadable
  | elf (elf : Elf)

namespace Executable

/-- The parsed file. -/
def elf? : Executable → Option Elf
  | .elf e => some e
  | _ => none

theorem eq_elf {e : Executable} {elf : Elf} (h : e.elf? = some elf) : e = .elf elf := by
  cases e with
  | elf e => exact congrArg Executable.elf (Option.some.inj h)
  | missing => cases h
  | unreadable => cases h

/-- Does parsing it panic? -/
def isUnreadable : Executable → Bool
  | .unreadable => true
  | _ => false

end Executable

/-- What the decoder reads besides the trace file. -/
structure World where
  /-- `File::open` of an executable, and what parses it -/
  execFile : String → Executable
  /-- `cpp_demangle` -/
  demangle : String → Option String
  /-- the pairs of `substitute-path.json` -/
  subsPath : List (String × String)
  /-- `MemoryMaps::from_buf_read` of `procfs` -/
  memoryMaps : List UInt8 → Option (List MemoryMap)
  /-- the content of a source file -/
  sourceFile : String → Option (List UInt8)

/-! ## Strings -/

/-- The characters before the first occurrence of `pat`, all if there is none. -/
def charsBefore (pat : List Char) : List Char → List Char
  | [] => []
  | c :: cs => if pat <+: c :: cs then [] else c :: charsBefore pat cs

/-- `strip_clone`: the name without its ` [clone .whatever]`. -/
def stripClone (input : String) : String :=
  String.ofList (charsBefore " [clone ".toList input.toList)

/-- `str::contains`. -/
def containsStr (s pat : String) : Bool := decide (pat.toList <:+: s.toList)

/-- `str::replace` for a non-empty pattern; `skip` characters belong to a match. -/
def replaceChars (src dst : List Char) : ℕ → List Char → List Char
  | _, [] => []
  | skip + 1, _ :: cs => replaceChars src dst skip cs
  | 0, c :: cs =>
    if src <+: c :: cs then dst ++ replaceChars src dst (src.length - 1) cs
    else c :: replaceChars src dst 0 cs

/-- `str::replace`: an empty pattern matches before each character and at the end. -/
def replaceStr (s src dst : String) : String :=
  String.ofList <| if src.isEmpty then dst.toList ++ s.toList.flatMap (· :: dst.toList)
    else replaceChars src.toList dst.toList 0 s.toList

/-- The path after all replacements of `substitute-path.json`, one after the other. -/
def substitutePath (w : World) (path : String) : String :=
  w.subsPath.foldl (fun s subs => replaceStr s subs.1 subs.2) path

/-! ## Binary searches -/

/-- The map that contains an address, by binary search. -/
def findAddressInMaps (address : UInt64) (maps : List MemoryMap) : Option MemoryMap :=
  match binarySearchBy (fun map : MemoryMap =>
      if address < map.start then .gt else if map.stop ≤ address then .lt else .eq) maps with
  | .ok index => maps[index]?
  | .error _ => none

/-- Dynamic symbols, then the others, stably sorted by base address. -/
def readElfSymbols (elf : Elf) : List Symbol :=
  (elf.dynsyms ++ elf.syms).insertionSort fun s t => s.baseAddress ≤ t.baseAddress

/-- The symbol with the greatest base address that is not greater than `address`, if it
    extends to `address`.  Among equal base addresses the search picks one. -/
def findSymbol (symbols : List Symbol) (address : UInt64) : Option Symbol :=
  let idx := match binarySearchBy (fun s : Symbol => compare s.baseAddress address) symbols with
    | .ok exact => some exact
    | .error 0 => none
    | .error (insertPos + 1) => some insertPos
  match idx.bind (symbols[·]?) with
  | none => none
  | some candidate =>
    if candidate.baseAddress ≤ address ∧ address < candidate.baseAddress + candidate.size then
      some candidate
    else none

/-! ## The lookup -/

/-- The maps and the caches. -/
structure ProcAddr2Sym where
  maps : List MemoryMap
  symCache : String → Option Elf
  symMissing : String → Bool
  offsetCache : UInt64 → Option UInt64
  /-- an `expect` on parsing an executable has failed -/
  panicked : Bool

namespace ProcAddr2Sym

/-- `ProcAddr2Sym::new`: no maps, empty caches. -/
def new : ProcAddr2Sym := ⟨[], fun _ => none, fun _ => false, fun _ => none, false⟩

/-- `unknown_symbol`. -/
def unknownSymbol : SymInfo := ⟨"??", "??", "??", 0, "??", 0, 0⟩

/-- The maps change: `symCache` stays valid, the offsets do not. -/
def setProcMaps (w : World) (p : ProcAddr2Sym) (data : List UInt8) : Option ProcAddr2Sym :=
  (w.memoryMaps data).map fun ms =>
    { p with maps := ms.insertionSort fun a b => a.start ≤ b.start, offsetCache := fun _ => none }

/-- The offset of a map from its addresses to those of the ELF file: by the first
    program header containing the map's file offset. -/
def vaddrOffset (elf : Elf) (map : MemoryMap) : Option UInt64 :=
  (elf.programHeaders.find? fun phdr =>
      phdr.pOffset ≤ map.offset ∧ map.offset < phdr.pOffset + phdr.pFilesz).map fun phdr =>
    (map.offset - phdr.pOffset) + phdr.pVaddr

/-- The end of `proc_addr2sym`: names, file and line of an address of the ELF file. -/
def symbolize (w : World) (elf : Elf) (pathstr : String) (staticAddr : UInt64) : SymInfo :=
  let sym := findSymbol (readElfSymbols elf) staticAddr
  -- whenever possible, the file and line are those of the function's first address
  let addr := (sym.map (·.baseAddress)).getD staticAddr
  let loc := elf.findLocation addr
  let names : String × String := match sym with
    | some s => (s.name, (w.demangle s.name).getD s.name)
    | none => match elf.findFrames addr with
      | some (raw, dem) => (raw.getD "??", dem.getD (raw.getD "??"))
      | none => ("??", "??")
  { func := stripClone names.1
    demangledFunc := stripClone names.2
    file := substitutePath w ((loc.bind (·.1)).getD "??")
    line := (loc.bind (·.2)).getD 0
    executableFile := pathstr
    staticAddr := addr
    size := (sym.map (·.size)).getD 0 }

/-- The parsed executable at `pathstr`, read and cached on first use; none if it is missing,
    or after a panic. -/
def openExec (w : World) (p : ProcAddr2Sym) (pathstr : String) : Option Elf × ProcAddr2Sym :=
  if p.symMissing pathstr then (none, p)
  else match p.symCache pathstr with
    | some elf => (some elf, p)
    | none => match w.execFile pathstr with
      | .missing => (none, { p with symMissing := Function.update p.symMissing pathstr true })
      | .unreadable => (none, { p with panicked := true })
      | .elf elf => (some elf, { p with symCache := Function.update p.symCache pathstr (some elf) })

/-- The offset of `map`, computed and cached on first use. -/
def mapOffset (p : ProcAddr2Sym) (elf : Elf) (map : MemoryMap) : Option UInt64 × ProcAddr2Sym :=
  match p.offsetCache map.start with
  | some off => (some off, p)
  | none => match vaddrOffset elf map with
    | none => (none, p)
    | some off =>
      (some off, { p with offsetCache := Function.update p.offsetCache map.start (some off) })

/-- `proc_addr2sym`: the function at an address of the process. -/
def procAddr2Sym (w : World) (p : ProcAddr2Sym) (procAddress : UInt64) :
    SymInfo × ProcAddr2Sym :=
  match findAddressInMaps procAddress p.maps with
  | none => (unknownSymbol, p)
  | some map => match map.path with
    | none => (unknownSymbol, p)
    | some path =>
      let pathstr := substitutePath w path
      match p.openExec w pathstr with
      | (none, p) => (unknownSymbol, p)
      | (some elf, p) => match p.mapOffset elf map with
        | (none, p) => (unknownSymbol, p)
        | (some off, p) => (symbolize w elf pathstr (procAddress - map.start + off), p)

end ProcAddr2Sym

end Funtrace
