/-
  The commands of the compiler wrapper (`compile_and_assemble_commands` in
  `compiler-wrappers/funtrace++`).

  A command with `-c` is split into one that compiles to assembly and one that
  assembles the filtered file.  Arguments are lists of characters.
-/
import Mathlib.Data.List.Basic

namespace Funtrace

/-- An argument of a command. -/
abbrev Arg := List Char

/-- `extensions` -/
def extensions : List Arg :=
  ["c".toList, "cpp".toList, "cc".toList, "cxx".toList, "cp".toList, "CPP".toList, "c++".toList,
    "C".toList]

/-- `is_src_arg` -/
def isSrcArg (arg : Arg) : Bool :=
  !(['-'].isPrefixOf arg) && extensions.any fun ext => ext.isSuffixOf arg

/-- `ofile` and `cfile` after the loop over the arguments, given those before it. -/
def scanArgs : List Arg → Option Arg × Option Arg → Option Arg × Option Arg
  | [], r => r
  | arg :: args, (ofile, cfile) =>
    -- the operand of `-o` is looked at again in the next turn
    if arg = "-o".toList ∧ args ≠ [] then scanArgs args (args.head?, cfile)
    else if isSrcArg arg then scanArgs args (ofile, some arg)
    else scanArgs args (ofile, cfile)

/-- `cfile[:cfile.rfind('.')]`; without a dot `rfind` gives `-1`. -/
def beforeDot (s : Arg) : Arg :=
  if '.' ∈ s then ((s.reverse.dropWhile (· ≠ '.')).drop 1).reverse else s.dropLast

/-- `compile_and_assemble_commands`: the two commands and the assembly file.  `none` if the command
    is run as it is, which does not return. -/
def compileAndAssembleCommands (cmd : List Arg) : Option (List Arg × List Arg × Arg) :=
  let (ofile, cfile) := scanArgs cmd (none, none)
  let compiler := cmd.headD []
  let assemble (ofile sfile : Arg) : List Arg :=
    [compiler, "-c".toList, sfile, "-o".toList, ofile] ++
      if compiler.tails.any ("clang".toList.isPrefixOf ·) then ["-Wa,-W".toList] else []
  match cfile with
  | none => none
  | some cfile =>
    match ofile.filter (· ≠ []) with
    | none =>
      let ofile := beforeDot cfile ++ ".o".toList
      let sfile := beforeDot cfile ++ ".s".toList
      some (cmd.map (fun arg => if arg = "-c".toList then "-S".toList else arg) ++
          ["-o".toList, sfile],
        assemble ofile sfile, sfile)
    | some ofile =>
      let sfile := ofile ++ ".s".toList
      some (cmd.map (fun arg => if arg = "-c".toList then "-S".toList
        else if arg = ofile then sfile else arg), assemble ofile sfile, sfile)

end Funtrace
