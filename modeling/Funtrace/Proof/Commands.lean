/-
  Compiling in two steps.

  A `Command` is a command line as the compiler reads it: options with their operands,
  among them `-c`, at most one output, and one source file.  Which other options there
  are, and whether one of them names the output, is up to the compiler.  The wrapper
  looks at arguments one by one, wherever they stand.  The two commands that it makes
  are those that the original asks for exactly if no argument can be mistaken
  (`twoStep_iff`).
-/
import Mathlib.Data.List.TakeWhile
import Funtrace.Wrapper.Commands

namespace Funtrace

/-! ## Commands -/

/-- An option with its operands, or a file. -/
inductive Item where
  /-- `-c` -/
  | compile
  /-- `-o file` -/
  | output (file : Arg)
  | source (file : Arg)
  | other (option : Arg) (operands : List Arg)

namespace Item

/-- The arguments that make up an item. -/
def args : Item → List Arg
  | compile => ["-c".toList]
  | output file => ["-o".toList, file]
  | source file => [file]
  | other option operands => option :: operands

/-- The operand of `-o`. -/
def output? : Item → Option Arg
  | output file => some file
  | _ => none

/-- The source file. -/
def source? : Item → Option Arg
  | source file => some file
  | _ => none

/-- The arguments that are neither `-c` nor `-o` with its operand. -/
def rest : Item → List Arg
  | compile => []
  | output _ => []
  | it => it.args

end Item

/-- A command that compiles one source file to an object file. -/
structure Command where
  compiler : Arg
  items : List Item
  sourceFile : Arg
  /-- the output, if an option other than `-o file` names one (`-ofile`, `--output=file`, a file of
      arguments) -/
  namedOutput : Option Arg
  compile_mem : Item.compile ∈ items
  one_source : items.filterMap Item.source? = [sourceFile]
  one_output : (items.filterMap Item.output? ++ namedOutput.toList).length ≤ 1
  output_ne : ∀ file ∈ items.filterMap Item.output?, file ≠ []
  /-- the compiler knows the language by the suffix -/
  suffix : ¬ ['-'] <+: sourceFile ∧ ∃ stem, ∃ ext ∈ extensions, sourceFile = stem ++ '.' :: ext
  other_options : ∀ option operands, Item.other option operands ∈ items →
    option ≠ "-c".toList ∧ option ≠ "-o".toList

namespace Command
variable (cmd : Command)

/-- The command line. -/
def args : List Arg := cmd.compiler :: cmd.items.flatMap Item.args

/-- The operand of `-o`. -/
def outputArg : Option Arg := cmd.items.findSome? fun
  | .output file => some file
  | _ => none

/-- The name of a file without its directories. -/
def baseName (file : Arg) : Arg := (file.reverse.takeWhile (· ≠ '/')).reverse

/-- The object file that the command writes: the output, or a file in the current directory with
    the name of the source file and another suffix. -/
def objectFile : Arg :=
  match (cmd.items.filterMap Item.output?).head? with
  | some file => file
  | none => cmd.namedOutput.getD (beforeDot (baseName cmd.sourceFile) ++ ".o".toList)

/-- The arguments that stand for neither `-c` nor the output. -/
def restArgs : List Arg := cmd.compiler :: cmd.items.flatMap Item.rest

/-- An option in the command that compiles to the file `sfile`. -/
def compileItem (sfile : Arg) : Item → List Arg
  | .compile => ["-S".toList]
  | .output _ => ["-o".toList, sfile]
  | it => it.args

/-- The command with `-S` for `-c` and another output. -/
def compileArgs (sfile : Arg) : List Arg :=
  cmd.compiler :: cmd.items.flatMap (compileItem sfile) ++
    if cmd.outputArg = none then ["-o".toList, sfile] else []

/-- The two commands compile to some file as the original does, and assemble it to the original's
    object file. -/
def TwoStep : Prop :=
  ∃ sfile flags, compileAndAssembleCommands cmd.args = some (cmd.compileArgs sfile,
    [cmd.compiler, "-c".toList, sfile, "-o".toList, cmd.objectFile] ++ flags, sfile)

end Command

/-! ## The scan -/

/-- The argument after the last `-o` that has one. -/
def lastOperand : List Arg → Option Arg
  | [] => none
  | arg :: args => (lastOperand args).or (if arg = "-o".toList then args.head? else none)

/-- The last argument that ends like a source file. -/
def lastSource (args : List Arg) : Option Arg := args.reverse.find? isSrcArg

theorem scanArgs_eq : ∀ (args : List Arg) (ofile cfile : Option Arg),
    scanArgs args (ofile, cfile) = ((lastOperand args).or ofile, (lastSource args).or cfile)
  | [], _, _ => rfl
  | arg :: args, ofile, cfile => by
    have hsource : lastSource (arg :: args) =
        (lastSource args).or (if isSrcArg arg then some arg else none) := by
      rw [lastSource, List.reverse_cons, List.find?_append, lastSource]
      congr 1
      by_cases h : isSrcArg arg
      · rw [if_pos h, List.find?_cons_of_pos h]
      · rw [if_neg h, List.find?_cons_of_neg h]
        rfl
    by_cases hoption : arg = "-o".toList ∧ args ≠ []
    · have hsrc : ¬ isSrcArg arg := by
        rw [hoption.1]
        decide
      obtain ⟨a, as, has⟩ := List.exists_cons_of_ne_nil hoption.2
      rw [scanArgs, if_pos hoption, scanArgs_eq args, hsource, if_neg hsrc, Option.or_none,
        lastOperand, if_pos hoption.1, has, List.head?_cons, Option.or_assoc]
      rfl
    · have hoperand : lastOperand (arg :: args) = lastOperand args := by
        rw [lastOperand]
        split_ifs with harg
        · have hnil : args = [] := by
            by_contra hne
            exact hoption ⟨harg, hne⟩
          rw [hnil]
          rfl
        · exact Option.or_none
      rw [scanArgs, if_neg hoption, hsource, hoperand]
      split_ifs with hsrc
      · rw [scanArgs_eq args, Option.or_assoc]
        rfl
      · rw [scanArgs_eq args, Option.or_none]

namespace Command
variable (cmd : Command)

/-- Without an output the argument `cfile` names the object file as the compiler does: it is the
    source file, of the current directory, or is called like it up to the suffix.  An output that
    another option names must be called like `cfile`. -/
def NamesObject (cfile : Arg) : Prop :=
  match cmd.namedOutput with
  | none => (cfile = cmd.sourceFile ∧ '/' ∉ cmd.sourceFile) ∨
      (cfile ≠ cmd.sourceFile ∧ beforeDot cfile = beforeDot (baseName cmd.sourceFile))
  | some file => file = beforeDot cfile ++ ".o".toList

/-- No argument can be mistaken: `-c` is the option wherever it stands; the output stands for
    itself only, and the last `-o` is its option; or, without one, there is no `-o`, and the
    argument that ends last like a source file names the object file. -/
def Unmistakable : Prop :=
  "-c".toList ∉ cmd.restArgs ∧
    match cmd.outputArg with
    | some o => o ≠ "-c".toList ∧ o ≠ "-o".toList ∧ o ∉ cmd.restArgs ∧ lastOperand cmd.args = some o
    | none => (lastOperand cmd.args).getD [] = [] ∧ ∃ cfile ∈ lastSource cmd.args, cmd.NamesObject cfile

end Command

/-! ## Names of files -/

theorem beforeDot_append {stem ext : Arg} (h : '.' ∉ ext) : beforeDot (stem ++ '.' :: ext) = stem := by
  have hreverse : (stem ++ '.' :: ext).reverse = ext.reverse ++ '.' :: stem.reverse := by simp
  have hext : ∀ c ∈ ext.reverse, (decide (c ≠ '.')) = true := fun c hc =>
    decide_eq_true fun heq => h (heq ▸ List.mem_reverse.1 hc)
  rw [beforeDot, if_pos (by simp), hreverse, List.dropWhile_append_of_pos hext,
    List.dropWhile_cons_of_neg (by simp), List.drop_one, List.tail_cons, List.reverse_reverse]

namespace Command

theorem baseName_append {stem ext : Arg} (h : '/' ∉ ext) :
    baseName (stem ++ '.' :: ext) = baseName stem ++ '.' :: ext := by
  have hreverse : (stem ++ '.' :: ext).reverse = ext.reverse ++ '.' :: stem.reverse := by simp
  have hext : ∀ c ∈ ext.reverse, (decide (c ≠ '/')) = true := fun c hc =>
    decide_eq_true fun heq => h (heq ▸ List.mem_reverse.1 hc)
  rw [baseName, hreverse, List.takeWhile_append_of_pos hext, List.takeWhile_cons_of_pos (by decide),
    baseName]
  simp

theorem baseName_eq_self_iff {file : Arg} : baseName file = file ↔ '/' ∉ file := by
  rw [baseName, ← List.reverse_inj, List.reverse_reverse, List.takeWhile_eq_self_iff]
  simp only [List.mem_reverse, ne_eq, decide_eq_true_eq]
  exact ⟨fun h hmem => h _ hmem rfl, fun h c hc heq => h (heq ▸ hc)⟩

/-- A source file has the name of its object file up to the suffix only if it is in the current
    directory. -/
theorem beforeDot_sourceFile (cmd : Command) :
    beforeDot cmd.sourceFile = beforeDot (baseName cmd.sourceFile) ↔ '/' ∉ cmd.sourceFile := by
  obtain ⟨-, stem, ext, hext, hfile⟩ := cmd.suffix
  have hplain : ∀ ext ∈ extensions, '.' ∉ ext ∧ '/' ∉ ext := by decide
  obtain ⟨hdot, hslash⟩ := hplain ext hext
  rw [hfile, beforeDot_append hdot, baseName_append hslash, beforeDot_append hdot, eq_comm,
    baseName_eq_self_iff]
  simp [hslash]

end Command

/-! ## The two commands -/

/-- What the first command has for an argument, given the output that was found. -/
def replaceOutput (o arg : Arg) : Arg :=
  if arg = "-c".toList then "-S".toList else if arg = o then o ++ ".s".toList else arg

/-- Compile to assembly instead of an object file. -/
def replaceCompile (arg : Arg) : Arg := if arg = "-c".toList then "-S".toList else arg

/-- What the assembling command has in addition. -/
def assembleFlags (compiler : Arg) : List Arg :=
  if compiler.tails.any ("clang".toList.isPrefixOf ·) then ["-Wa,-W".toList] else []

theorem compileAndAssemble_output {compiler o cfile : Arg} {args : List Arg}
    (ho : lastOperand (compiler :: args) = some o) (hne : o ≠ [])
    (hsource : lastSource (compiler :: args) = some cfile) :
    compileAndAssembleCommands (compiler :: args) = some ((compiler :: args).map (replaceOutput o),
      [compiler, "-c".toList, o ++ ".s".toList, "-o".toList, o] ++ assembleFlags compiler,
      o ++ ".s".toList) := by
  simp only [compileAndAssembleCommands, scanArgs_eq, ho, hsource, Option.or_none,
    Option.filter_some, hne, ne_eq, not_false_eq_true, decide_true, if_true, List.headD_cons]
  rfl

theorem compileAndAssemble_derived {compiler cfile : Arg} {args : List Arg}
    (ho : (lastOperand (compiler :: args)).getD [] = [])
    (hsource : lastSource (compiler :: args) = some cfile) :
    compileAndAssembleCommands (compiler :: args) =
      some ((compiler :: args).map replaceCompile ++ ["-o".toList, beforeDot cfile ++ ".s".toList],
        [compiler, "-c".toList, beforeDot cfile ++ ".s".toList, "-o".toList,
          beforeDot cfile ++ ".o".toList] ++ assembleFlags compiler,
        beforeDot cfile ++ ".s".toList) := by
  have hfilter : (lastOperand (compiler :: args)).filter (· ≠ []) = none := by
    cases h : lastOperand (compiler :: args) with
    | none => rfl
    | some o =>
      rw [h, Option.getD_some] at ho
      rw [ho]
      rfl
  simp only [compileAndAssembleCommands, scanArgs_eq, hsource, Option.or_none, hfilter,
    List.headD_cons]
  rfl

theorem replaceOutput_eq_iff {o a : Arg} : replaceOutput o a = a ↔ a ≠ "-c".toList ∧ a ≠ o := by
  unfold replaceOutput
  split_ifs with hc ho
  · rw [hc]
    exact iff_of_false (by decide) fun h => h.1 rfl
  · refine iff_of_false (fun heq => ?_) fun h => h.2 ho
    have hlength := congrArg List.length heq
    rw [ho, List.length_append] at hlength
    have hs : ".s".toList.length = 2 := by decide
    omega
  · exact iff_of_true rfl ⟨hc, ho⟩

theorem replaceCompile_eq_iff {a : Arg} : replaceCompile a = a ↔ a ≠ "-c".toList := by
  unfold replaceCompile
  split_ifs with hc
  · rw [hc]
    exact iff_of_false (by decide) fun h => h rfl
  · exact iff_of_true rfl hc

theorem flatMap_eq_flatMap_iff {α β : Type} {f g : α → List β} : ∀ {l : List α},
    (∀ a ∈ l, (f a).length = (g a).length) → (l.flatMap f = l.flatMap g ↔ ∀ a ∈ l, f a = g a)
  | [], _ => by simp
  | a :: l, h => by
    obtain ⟨ha, h⟩ := List.forall_mem_cons.1 h
    rw [List.flatMap_cons, List.flatMap_cons, List.forall_mem_cons, ← flatMap_eq_flatMap_iff h]
    exact ⟨fun heq => List.append_inj heq ha, fun ⟨heq, heq'⟩ => by rw [heq, heq']⟩

theorem map_eq_self_iff {g : Arg → Arg} {as : List Arg} : as.map g = as ↔ ∀ a ∈ as, g a = a := by
  conv_lhs => rhs; rw [← List.map_id as]
  exact List.map_inj_left

/-- One option of the first command. -/
theorem map_item_eq_iff {g : Arg → Arg} (hg : g "-c".toList = "-S".toList) (sfile : Arg)
    (it : Item) :
    it.args.map g = Command.compileItem sfile it ↔ (∀ a ∈ it.rest, g a = a) ∧
      ∀ file, it = .output file → g "-o".toList = "-o".toList ∧ g file = sfile := by
  cases it with
  | compile =>
    refine iff_of_true ?_ ⟨fun a ha => absurd ha List.not_mem_nil, fun file h => nomatch h⟩
    exact congrArg (fun a => [a]) hg
  | output file =>
    have hcons : [g "-o".toList, g file] = ["-o".toList, sfile] ↔
        g "-o".toList = "-o".toList ∧ g file = sfile := by
      rw [List.cons.injEq, List.cons.injEq, and_iff_left rfl]
    refine hcons.trans ⟨fun h => ⟨?_, ?_⟩, fun h => h.2 file rfl⟩
    · exact fun a ha => absurd ha List.not_mem_nil
    · rintro file' ⟨⟩
      exact h
  | source file => exact map_eq_self_iff.trans (iff_self_and.2 fun _ file h => nomatch h)
  | other option operands => exact map_eq_self_iff.trans (iff_self_and.2 fun _ file h => nomatch h)

theorem length_compileItem (sfile : Arg) (it : Item) :
    (Command.compileItem sfile it).length = it.args.length := by
  cases it <;> simp only [Command.compileItem, Item.args, List.length_cons, List.length_nil]

/-- **The first command** is the one asked for exactly if the arguments that stand for themselves
    are kept. -/
theorem map_args_eq_iff (cmd : Command) {g : Arg → Arg} (hg : g "-c".toList = "-S".toList)
    (sfile : Arg) :
    cmd.args.map g = cmd.compiler :: cmd.items.flatMap (Command.compileItem sfile) ↔
      (∀ a ∈ cmd.restArgs, g a = a) ∧
        ∀ file, Item.output file ∈ cmd.items → g "-o".toList = "-o".toList ∧ g file = sfile := by
  have hitems : (cmd.items.flatMap fun it => it.args.map g) =
      cmd.items.flatMap (Command.compileItem sfile) ↔
      ∀ it ∈ cmd.items, it.args.map g = Command.compileItem sfile it :=
    flatMap_eq_flatMap_iff fun it _ => by rw [List.length_map, length_compileItem]
  rw [Command.args, List.map_cons, List.cons.injEq, List.map_flatMap, hitems, Command.restArgs,
    List.forall_mem_cons, and_assoc]
  refine and_congr_right fun _ => ?_
  simp only [map_item_eq_iff hg, List.mem_flatMap]
  constructor
  · intro h
    refine ⟨?_, fun file hfile => (h _ hfile).2 file rfl⟩
    rintro a ⟨it, hit, ha⟩
    exact (h it hit).1 a ha
  · rintro ⟨hrest, houtput⟩ it hit
    refine ⟨fun a ha => hrest a ⟨it, hit, ha⟩, ?_⟩
    rintro file rfl
    exact houtput file hit

namespace Command
variable {cmd : Command}

theorem output_of_outputArg {o : Arg} (h : cmd.outputArg = some o) :
    Item.output o ∈ cmd.items ∧ cmd.items.filterMap Item.output? = [o] := by
  obtain ⟨it, hit, hfile⟩ := List.exists_of_findSome?_eq_some h
  cases it with
  | output file =>
    rw [Option.some.injEq] at hfile
    subst hfile
    have hmem : file ∈ cmd.items.filterMap Item.output? := List.mem_filterMap.2 ⟨_, hit, rfl⟩
    have hone := cmd.one_output
    rw [List.length_append] at hone
    obtain ⟨a, ha⟩ := List.length_eq_one_iff.1
      (Nat.le_antisymm (Nat.le_of_add_right_le hone) (List.length_pos_of_mem hmem))
    rw [ha, List.mem_singleton] at hmem
    exact ⟨hit, by rw [ha, hmem]⟩
  | compile => cases hfile
  | source file => cases hfile
  | other option operands => cases hfile

theorem not_output_of_outputArg (h : cmd.outputArg = none) (file : Arg) :
    Item.output file ∉ cmd.items := by
  intro hmem
  have hnone := List.findSome?_eq_none_iff.1 h _ hmem
  cases hnone

/-- Which object file the command writes. -/
theorem objectFile_of_not_outputArg (h : cmd.outputArg = none) : cmd.objectFile =
    cmd.namedOutput.getD (beforeDot (baseName cmd.sourceFile) ++ ".o".toList) := by
  have hnone : cmd.items.filterMap Item.output? = [] := by
    rw [List.filterMap_eq_nil_iff]
    intro it hit
    cases it with
    | output file => exact absurd hit (not_output_of_outputArg h file)
    | compile => rfl
    | source file => rfl
    | other option operands => rfl
  rw [objectFile, hnone]
  rfl

/-- Without an output, this is when the wrapper's name is the compiler's. -/
theorem namesObject_iff (h : cmd.outputArg = none) {cfile : Arg} :
    beforeDot cfile ++ ".o".toList = cmd.objectFile ↔ cmd.NamesObject cfile := by
  rw [objectFile_of_not_outputArg h, NamesObject]
  cases cmd.namedOutput with
  | some file => exact eq_comm
  | none =>
    rw [Option.getD_none, List.append_cancel_right_eq]
    dsimp only
    by_cases hsame : cfile = cmd.sourceFile
    · rw [hsame, beforeDot_sourceFile]
      simp
    · simp [hsame]

/-- The source file is recognised. -/
theorem exists_lastSource (cmd : Command) : ∃ cfile, lastSource cmd.args = some cfile := by
  rw [← Option.isSome_iff_exists, lastSource, List.find?_isSome]
  obtain ⟨hdash, stem, ext, hext, hfile⟩ := cmd.suffix
  have hitem : Item.source cmd.sourceFile ∈ cmd.items := by
    have hmem : cmd.sourceFile ∈ cmd.items.filterMap Item.source? := by
      rw [cmd.one_source]
      exact List.mem_cons_self
    obtain ⟨it, hit, heq⟩ := List.mem_filterMap.1 hmem
    cases it with
    | source file => rwa [Option.some.inj heq] at hit
    | compile => cases heq
    | output file => cases heq
    | other option operands => cases heq
  refine ⟨cmd.sourceFile, ?_, ?_⟩
  · rw [List.mem_reverse]
    exact List.mem_cons_of_mem _ (List.mem_flatMap.2 ⟨_, hitem, List.mem_singleton_self _⟩)
  · rw [isSrcArg, Bool.and_eq_true, Bool.not_eq_true', List.any_eq_true]
    refine ⟨Bool.eq_false_iff.2 fun h => hdash (List.isPrefixOf_iff_prefix.1 h), ext, hext, ?_⟩
    rw [List.isSuffixOf_iff_suffix, hfile]
    exact ⟨stem ++ ['.'], by simp⟩

variable (cmd)

/-- What the first command is, but for an added output. -/
def keptArgs (sfile : Arg) : List Arg := cmd.compiler :: cmd.items.flatMap (compileItem sfile)

theorem length_keptArgs (sfile : Arg) : (cmd.keptArgs sfile).length = cmd.args.length := by
  simp only [keptArgs, args, List.length_cons, List.length_flatMap, length_compileItem]

theorem objectFile_of_outputArg {o : Arg} (h : cmd.outputArg = some o) : cmd.objectFile = o := by
  rw [objectFile, (output_of_outputArg h).2]
  rfl

/-- Where the wrapper finds no output, but the command has one, it adds an output. -/
theorem compileArgs_ne (sfile sfile' : Arg) {g : Arg → Arg} :
    cmd.args.map g ++ ["-o".toList, sfile'] ≠ cmd.keptArgs sfile ∧
      cmd.args.map g ≠ cmd.keptArgs sfile ++ ["-o".toList, sfile'] := by
  constructor <;> intro heq <;> have hlength := congrArg List.length heq
  · rw [List.length_append, List.length_map, length_keptArgs, List.length_cons] at hlength
    omega
  · rw [List.length_append, List.length_map, length_keptArgs, List.length_cons] at hlength
    omega

variable {cmd}

/-- Without an output, the arguments that stand for themselves are kept. -/
theorem map_replaceCompile_eq_iff (houtput : cmd.outputArg = none) (sfile : Arg) :
    cmd.args.map replaceCompile = cmd.keptArgs sfile ↔ "-c".toList ∉ cmd.restArgs := by
  refine (@map_args_eq_iff cmd replaceCompile (if_pos rfl) sfile).trans ?_
  simp only [replaceCompile_eq_iff]
  constructor
  · rintro ⟨hrest, -⟩ hmem
    exact hrest _ hmem rfl
  · intro hrest
    refine ⟨?_, fun file hfile => absurd hfile (not_output_of_outputArg houtput file)⟩
    rintro a ha rfl
    exact hrest ha

/-- With an output, it stands for itself as well. -/
theorem map_replaceOutput_eq_iff {o : Arg} (houtput : cmd.outputArg = some o) :
    cmd.args.map (replaceOutput o) = cmd.keptArgs (o ++ ".s".toList) ↔
      "-c".toList ∉ cmd.restArgs ∧ o ≠ "-c".toList ∧ o ≠ "-o".toList ∧ o ∉ cmd.restArgs := by
  refine (@map_args_eq_iff cmd (replaceOutput o) (if_pos rfl) (o ++ ".s".toList)).trans ?_
  simp only [replaceOutput_eq_iff]
  obtain ⟨hmem, honly⟩ := output_of_outputArg houtput
  constructor
  · rintro ⟨hrest, hfile⟩
    obtain ⟨hoption, hoperand⟩ := hfile o hmem
    refine ⟨fun h => (hrest _ h).1 rfl, ?_, hoption.2.symm, fun h => (hrest _ h).2 rfl⟩
    -- `-c` would have become `-S`
    rintro rfl
    revert hoperand
    decide
  · rintro ⟨hcompile, hc, ho, hrest⟩
    refine ⟨?_, ?_⟩
    · intro a ha
      exact ⟨fun h => hcompile (h ▸ ha), fun h => hrest (h ▸ ha)⟩
    · intro file hfile
      have hfile : file ∈ cmd.items.filterMap Item.output? := List.mem_filterMap.2 ⟨_, hfile, rfl⟩
      rw [honly, List.mem_singleton] at hfile
      refine ⟨⟨by decide, ho.symm⟩, ?_⟩
      rw [hfile, replaceOutput, if_neg hc, if_pos rfl]

theorem compileArgs_of_some {o : Arg} (houtput : cmd.outputArg = some o) (sfile : Arg) :
    cmd.compileArgs sfile = cmd.keptArgs sfile := by
  rw [compileArgs, if_neg (by rw [houtput]; exact Option.some_ne_none o), List.append_nil, keptArgs]

theorem compileArgs_of_none (houtput : cmd.outputArg = none) (sfile : Arg) :
    cmd.compileArgs sfile = cmd.keptArgs sfile ++ ["-o".toList, sfile] := by
  rw [compileArgs, if_pos houtput, keptArgs]

/-- The wrapper finds no output. -/
theorem twoStep_derived {cfile : Arg} (hfound : (lastOperand cmd.args).getD [] = [])
    (hsource : lastSource cmd.args = some cfile) : cmd.TwoStep ↔ cmd.Unmistakable := by
  have hcommands := compileAndAssemble_derived hfound hsource
  rw [← args] at hcommands
  rw [TwoStep, Unmistakable, hcommands]
  cases houtput : cmd.outputArg with
  | some o =>
    have hne : o ≠ [] := by
      refine cmd.output_ne o ?_
      rw [(output_of_outputArg houtput).2]
      exact List.mem_cons_self
    refine iff_of_false ?_ ?_
    · rintro ⟨sfile, flags, heq⟩
      rw [compileArgs_of_some houtput, Option.some.injEq, Prod.mk.injEq] at heq
      exact (cmd.compileArgs_ne _ _).1 heq.1
    · rintro ⟨-, -, -, -, hlast⟩
      rw [hlast, Option.getD_some] at hfound
      exact hne hfound
  | none =>
    simp only [compileArgs_of_none houtput, Option.some.injEq, Prod.mk.injEq]
    simp only [hsource, Option.mem_some_iff, exists_eq_left', ← namesObject_iff houtput]
    constructor
    · rintro ⟨sfile, flags, hcompile, hassemble, rfl⟩
      have hkept := List.append_cancel_right hcompile
      refine ⟨(map_replaceCompile_eq_iff houtput _).1 hkept, hfound, ?_⟩
      simp only [List.cons_append, List.cons.injEq] at hassemble
      exact hassemble.2.2.2.2.1
    · rintro ⟨hrest, -, hobject⟩
      refine ⟨_, assembleFlags cmd.compiler, ?_, ?_, rfl⟩
      · rw [(map_replaceCompile_eq_iff houtput _).2 hrest]
      · rw [hobject]

/-- The wrapper finds the output `o`. -/
theorem twoStep_output {o cfile : Arg} (ho : lastOperand cmd.args = some o) (hne : o ≠ [])
    (hsource : lastSource cmd.args = some cfile) : cmd.TwoStep ↔ cmd.Unmistakable := by
  have hcommands := compileAndAssemble_output ho hne hsource
  rw [← args] at hcommands
  rw [TwoStep, Unmistakable, hcommands]
  cases houtput : cmd.outputArg with
  | none =>
    refine iff_of_false ?_ ?_
    · rintro ⟨sfile, flags, heq⟩
      rw [compileArgs_of_none houtput, Option.some.injEq, Prod.mk.injEq] at heq
      exact (cmd.compileArgs_ne _ _).2 heq.1
    · rintro ⟨-, hlast, -⟩
      rw [ho, Option.getD_some] at hlast
      exact hne hlast
  | some o' =>
    simp only [compileArgs_of_some houtput, Option.some.injEq, Prod.mk.injEq, ho,
      cmd.objectFile_of_outputArg houtput]
    constructor
    · rintro ⟨sfile, flags, hcompile, hassemble, rfl⟩
      simp only [List.cons_append, List.cons.injEq] at hassemble
      obtain rfl := hassemble.2.2.2.2.1
      obtain ⟨hc, hoc, hoo, hrest⟩ := (map_replaceOutput_eq_iff houtput).1 hcompile
      exact ⟨hc, hoc, hoo, hrest, rfl⟩
    · rintro ⟨hc, hoc, hoo, hrest, rfl⟩
      exact ⟨_, assembleFlags cmd.compiler,
        (map_replaceOutput_eq_iff houtput).2 ⟨hc, hoc, hoo, hrest⟩, rfl, rfl⟩

end Command

/-- `g++ -c -MT foo.o -MF foo.o.d -o foo.o foo.cpp` -/
def dependencyCommand : Command where
  compiler := "g++".toList
  items := [.compile, .other "-MT".toList ["foo.o".toList], .other "-MF".toList ["foo.o.d".toList],
    .output "foo.o".toList, .source "foo.cpp".toList]
  sourceFile := "foo.cpp".toList
  namedOutput := none
  compile_mem := List.mem_cons_self
  one_source := rfl
  one_output := Nat.le_refl 1
  output_ne := by
    intro file hfile
    rw [List.mem_singleton.1 hfile]
    decide
  suffix := ⟨by decide, "foo".toList, "cpp".toList, by decide, by decide⟩
  other_options := by
    intro option operands hmem
    simp only [List.mem_cons, List.not_mem_nil, or_false, reduceCtorEq, false_or,
      Item.other.injEq] at hmem
    rcases hmem with ⟨rfl, -⟩ | ⟨rfl, -⟩ <;> decide

end Funtrace
