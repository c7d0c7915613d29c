/-
  The filter of assembly texts (`TraceSupressor` and `filter_asm` in
  `compiler-wrappers/funtrace++`).

  The wrapper compiles to assembly, comments the calls of the tracing hooks out of
  the functions that are not to be traced, and assembles the result.  Texts are
  lists of characters, files lists of lines; `none` stands for an exception.
-/
import Funtrace.Lib.Python

namespace Funtrace

/-! ## What is not traced -/

/-- `TraceSupressor`, without the fields that only `verbose` prints. -/
structure TraceSupressor where
  instrThresh : ℤ
  ignoreLoops : Bool
  noTrace : List (List Char)
  noFile : List Char
  doTrace : List (List Char)

/-- `suppress`: the reason not to trace a function, if there is one.  The name is `None` before
    the first `.type`. -/
def TraceSupressor.suppress (s : TraceSupressor) (funcname : Option (List Char))
    (numInstr loops : ℕ) : Option (List Char) :=
  let name := funcname.getD "None".toList
  let short := name ++ " has ".toList ++ (toString numInstr).toList ++
    " instructions, less than -funtrace-instr-thresh=".toList ++ (toString s.instrThresh).toList
  if funcname.any (· ∈ s.doTrace) then none
  else if funcname.any (· ∈ s.noTrace) then
    some (name ++ " listed in the trace suppression file ".toList ++ s.noFile)
  else if numInstr < s.instrThresh then
    if loops = 0 then some short
    else if s.ignoreLoops then
      some (short ++ "; it has ".toList ++ (toString loops).toList ++
        " loops but -funtrace-ignore-loops was passed".toList)
    else none
  else none

/-- `hooks`: the functions that trace. -/
def hooks : List (List Char) :=
  ["__cyg_profile_func_enter".toList, "__cyg_profile_func_exit".toList, "__fentry__".toList,
    "__return__".toList]

/-! ## Lines -/

/-- Does the line name a function? -/
def isType (line : List Char) : Bool :=
  let l := strip isPySpace line
  ".type".toList.isPrefixOf l && "@function".toList.isSuffixOf l

/-- `l.split(',')[0].split()[-1]` -/
def typeName (line : List Char) : Option (List Char) :=
  (words isPySpace ((strip isPySpace line).takeWhile (· ≠ ','))).getLast?

/-- Does the line begin a function? -/
def isStart (line : List Char) : Bool := strip isPySpace line == ".cfi_startproc".toList

/-- Does the line end a function? -/
def isEnd (line : List Char) : Bool := strip isPySpace line == ".cfi_endproc".toList

/-- `l.split()[0]`, `none` for a blank line. -/
def firstWord (line : List Char) : Option (List Char) := (words isPySpace (strip isPySpace line)).head?

/-- `isinstr`; `t` is the first word of the line. -/
def isInstr (line t : List Char) : Bool :=
  line.head?.any isPySpace && !(['.'].isPrefixOf t) && !([':'].isSuffixOf t)

/-- Does the line contain the text of a call or a jump, and of a hook? -/
def mentionsHook (line : List Char) : Bool :=
  let l := strip isPySpace line
  hooks.any fun hook => (isIn "call".toList l || isIn "jmp".toList l) && isIn hook l

/-- The line in a function that is suppressed for `reason`. -/
def suppressLine (reason line : List Char) : List Char :=
  if mentionsHook line then
    let commented := "# ".toList ++ line ++ " # ".toList ++ reason
    if isIn "jmp".toList (strip isPySpace line) then "    ret ".toList ++ commented else commented
  else line

/-! ## The loop over the lines -/

/-- What is counted in a function. -/
structure Counts where
  instrs : ℕ
  loops : ℕ
  labels : List (List Char)

/-- At the beginning of a function. -/
def Counts.zero : Counts := ⟨0, 0, []⟩

/-- The last branch of the loop. -/
def Counts.step (c : Counts) (line : List Char) : Counts :=
  match firstWord line with
  | none => c
  | some t =>
    if isInstr line t then
      -- a line counts as one loop, however many labels it contains
      { c with
        instrs := c.instrs + 1
        loops := if c.labels.any fun label => isIn label (strip isPySpace line) then c.loops + 1
          else c.loops }
    else if ['.'].isPrefixOf t && [':'].isSuffixOf t then
      { c with labels := c.labels ++ [t.dropLast] }
    else c

/-- The variables of `filter_asm`. -/
structure FilterState where
  lines : List (List Char)
  funcname : Option (List Char)
  infunc : Bool
  counts : Counts
  funcstart : Option ℕ
  changed : Bool

namespace FilterState

/-- Before the first line. -/
def init (lines : List (List Char)) : FilterState := ⟨lines, none, false, Counts.zero, none, false⟩

/-- The loop over `range(funcstart, i)`. -/
def suppressBody (st : FilterState) (reason : List Char) (funcstart i : ℕ) : FilterState :=
  let body := (st.lines.take i).drop funcstart
  { st with
    lines := st.lines.take funcstart ++ body.map (suppressLine reason) ++ st.lines.drop i
    changed := st.changed || body.any mentionsHook }

/-- The body of the loop, for line number `i`. -/
def step (s : TraceSupressor) (st : FilterState) (i : ℕ) (line : List Char) : Option FilterState :=
  if isType line then some { st with funcname := typeName line }
  else if isStart line then
    some { st with infunc := true, funcstart := some (i + 1), counts := Counts.zero }
  else if isEnd line then
    let st := { st with infunc := false }
    match s.suppress st.funcname st.counts.instrs st.counts.loops with
    | none => some st
    | some reason => st.funcstart.map fun funcstart => st.suppressBody reason funcstart i
  else if st.infunc then some { st with counts := st.counts.step line }
  else some st

end FilterState

/-- The loop over the lines from number `i` on.  It changes no line that it has not passed. -/
def filterLoop (s : TraceSupressor) : ℕ → List (List Char) → FilterState → Option FilterState
  | _, [], st => some st
  | i, line :: lines, st => (st.step s i line).bind (filterLoop s (i + 1) lines)

/-- The loop of `filter_asm` over all lines. -/
def filterLines (s : TraceSupressor) (lines : List (List Char)) : Option (List (List Char)) :=
  (filterLoop s 0 lines (FilterState.init lines)).map FilterState.lines

/-- `filter_asm`: the text of the file afterwards. -/
def filterAsm (s : TraceSupressor) (text : List Char) : Option (List Char) :=
  let lines := text.splitOn '\n'
  (filterLoop s 0 lines (FilterState.init lines)).map fun st =>
    if st.changed then ['\n'].intercalate st.lines else text

end Funtrace
