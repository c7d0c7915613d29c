/-
  Lines of assembly, as an assembler reads them.

  A line has statements, with a `;` between two, and may end with a comment.  A
  statement begins with labels; after them comes an instruction, a directive or an
  assignment, or nothing.

  * `itemsOf` lists the labels and the instructions of a line;
  * `AsmItem.refersTo` and `AsmItem.targets` say what an instruction is about;
  * `infix_of_mem_itemsOf`: the words of an instruction stand in the line.
-/
import Mathlib.Data.List.Forall2
import Mathlib.Data.List.Infix
import Mathlib.Tactic.SplitIfs
import Funtrace.Lib.Words

namespace Funtrace

/-! ## Reading a line -/

/-- What counts in a line. -/
inductive AsmItem where
  /-- a label that is defined -/
  | label (name : List Char)
  /-- an instruction: its prefixes, mnemonic and operands -/
  | instr (words : List (List Char))
deriving DecidableEq

/-- A character of a symbol. -/
def isSymbolChar (c : Char) : Bool :=
  c.isAlphanum || c == '_' || c == '.' || c == '$' || 0x80 ≤ c.val

/-- The symbols in an operand.  A `$` before one makes it an immediate operand. -/
def symbolsOf (operand : List Char) : List (List Char) :=
  (words (fun c => !isSymbolChar c) operand).map (List.dropWhile (· == '$'))

/-- The text with blanks in place of its strings; `quoted` is the state at its start. -/
def blankStrings : Bool → List Char → List Char
  | _, [] => []
  | false, '"' :: cs => ' ' :: blankStrings true cs
  | false, c :: cs => c :: blankStrings false cs
  | true, '\\' :: _ :: cs => ' ' :: ' ' :: blankStrings true cs
  | true, '"' :: cs => ' ' :: blankStrings false cs
  | true, _ :: cs => ' ' :: blankStrings true cs

section
variable (blank : Char → Bool)

/-- The code of a line, without strings and comment. -/
def codeOf (line : List Char) : List Char :=
  (blankStrings false (strip blank line)).takeWhile (· ≠ '#')

/-- A statement without its labels. -/
def bareItem (code : List Char) : List AsmItem :=
  match words blank code with
  | [] => []
  | word :: rest =>
    if ['.'] <+: word ∨ rest.head? = some ['='] then [] else [.instr (word :: rest)]

/-- A statement, of which these are the pieces between colons. -/
def statementItems : List (List Char) → List AsmItem
  | [] => []
  | [code] => bareItem blank code
  | piece :: code :: pieces =>
    let name := strip blank piece
    if name ≠ [] ∧ name.all isSymbolChar then .label name :: statementItems (code :: pieces)
    else bareItem blank ([':'].intercalate (piece :: code :: pieces))

/-- The labels and the instructions of a line, in order. -/
def itemsOf (line : List Char) : List AsmItem :=
  ((codeOf blank line).splitOn ';').flatMap fun statement =>
    statementItems blank (statement.splitOn ':')

end

namespace AsmItem

/-- Is it an instruction? -/
def isInstr : AsmItem → Bool
  | label _ => false
  | instr _ => true

/-- Is it a label that is only a number? -/
def isNumber : AsmItem → Bool
  | label name => name.all Char.isDigit
  | instr _ => false

/-- The symbols that an instruction refers to. -/
def refersTo (symbol : List Char) : AsmItem → Bool
  | label _ => false
  | instr words => words.any fun word => (symbolsOf word).contains symbol

/-- Prefixes that a call or a jump may have. -/
def prefixes : List (List Char) := ["bnd", "notrack", "data16", "rex64", "addr32"].map String.toList

/-- Is it an instruction with one of the mnemonics, whose target is one of the symbols? -/
def targets (mnemonics symbols : List (List Char)) : AsmItem → Bool
  | label _ => false
  | instr words =>
    match words.dropWhile (prefixes.contains ·) with
    | [] => false
    | mnemonic :: operands =>
      mnemonics.contains mnemonic && operands.any fun op => (symbolsOf op).any (symbols.contains ·)

end AsmItem

/-! ## Words of a line -/

section
variable {blank : Char → Bool}

/-- Blanking changes characters into blanks only. -/
theorem forall₂_blankStrings : ∀ (quoted : Bool) (text : List Char),
    List.Forall₂ (fun c d => d = c ∨ d = ' ') text (blankStrings quoted text)
  | quoted, text => by
    fun_induction blankStrings quoted text with
    | case1 => exact .nil
    | case2 cs ih => exact .cons (Or.inr rfl) ih
    | case3 c cs _ ih => exact .cons (Or.inl rfl) ih
    | case4 c cs ih => exact .cons (Or.inr rfl) (.cons (Or.inr rfl) ih)
    | case5 cs ih => exact .cons (Or.inr rfl) ih
    | case6 c cs _ _ ih => exact .cons (Or.inr rfl) ih

/-- What stands in a text with blanks put in, and has none, stands in the text. -/
theorem infix_of_forall₂ {text out w : List Char}
    (h : List.Forall₂ (fun c d => d = c ∨ d = ' ') text out) (hw : w <:+: out) (hno : ' ' ∉ w) :
    w <:+: text := by
  obtain ⟨before, after, rfl⟩ := hw
  have hpart := List.forall₂_take w.length (List.forall₂_drop before.length h)
  rw [List.append_assoc, List.drop_left, List.take_left] at hpart
  have hsame : (text.drop before.length).take w.length = w := by
    rw [← List.forall₂_eq_eq_eq]
    generalize (text.drop before.length).take w.length = part at hpart
    clear h
    induction hpart with
    | nil => exact .nil
    | cons hcd _ ih =>
      rw [List.mem_cons, not_or] at hno
      exact .cons (hcd.resolve_right (Ne.symm hno.1)).symm (ih hno.2)
  rw [← hsame]
  exact (List.take_prefix _ _).isInfix.trans (List.drop_suffix _ _).isInfix

/-- The words of a statement without labels stand in it. -/
theorem mem_words_of_mem_bareItem {code w : List Char} {ws : List (List Char)}
    (h : .instr ws ∈ bareItem blank code) (hw : w ∈ ws) : w ∈ words blank code := by
  unfold bareItem at h
  split at h
  · cases h
  · next word rest heq =>
    split_ifs at h
    · cases h
    · obtain rfl := AsmItem.instr.inj (List.mem_singleton.1 h)
      rwa [heq]

/-- The words of a statement's instruction stand in the statement. -/
theorem infix_of_mem_statementItems {w : List Char} {ws : List (List Char)} (hw : w ∈ ws) :
    ∀ {pieces : List (List Char)}, .instr ws ∈ statementItems blank pieces →
      w <:+: [':'].intercalate pieces ∧ ∀ c ∈ w, ¬ blank c
  | [], h => by cases h
  | [code], h => by
    have hmem := mem_words_of_mem_bareItem h hw
    rw [List.intercalate_singleton]
    exact ⟨infix_of_mem_words hmem, not_blank_of_mem_words hmem⟩
  | piece :: code :: pieces, h => by
    simp only [statementItems] at h
    split_ifs at h
    · obtain ⟨hin, hno⟩ := infix_of_mem_statementItems hw ((List.mem_cons.1 h).resolve_left (by simp))
      refine ⟨hin.trans ?_, hno⟩
      rw [List.intercalate_cons_cons]
      exact (List.suffix_append _ _).isInfix
    · have hmem := mem_words_of_mem_bareItem h hw
      exact ⟨infix_of_mem_words hmem, not_blank_of_mem_words hmem⟩

/-- **The words of an instruction** stand in its line. -/
theorem infix_of_mem_itemsOf (hblank : blank ' ') {line w : List Char} {ws : List (List Char)}
    (h : .instr ws ∈ itemsOf blank line) (hw : w ∈ ws) : w <:+: strip blank line := by
  obtain ⟨statement, hstatement, hitem⟩ := List.mem_flatMap.1 h
  obtain ⟨hin, hno⟩ := infix_of_mem_statementItems hw hitem
  rw [List.intercalate_splitOn] at hin
  have hcode : statement <:+: codeOf blank line := by
    rw [List.splitOn_eq_splitOnP] at hstatement
    obtain ⟨u, us, hu⟩ := List.exists_cons_of_ne_nil (List.splitOnP_ne_nil (· == ';') (codeOf blank line))
    obtain ⟨hpre, hall⟩ := splitOnP_pieces hu
    rw [hu] at hstatement
    rcases List.mem_cons.1 hstatement with rfl | hmem
    exacts [hpre.isInfix, hall statement hmem]
  refine infix_of_forall₂ (forall₂_blankStrings false _) ?_ fun hmem => hno ' ' hmem hblank
  exact (hin.trans hcode).trans (List.takeWhile_prefix _).isInfix

end

namespace AsmItem

theorem infix_of_mem_symbolsOf {symbol operand : List Char} (h : symbol ∈ symbolsOf operand) :
    symbol <:+: operand := by
  obtain ⟨word, hword, rfl⟩ := List.mem_map.1 h
  exact (List.dropWhile_suffix _).isInfix.trans (infix_of_mem_words hword)

/-- What has a target is an instruction with the mnemonic and the symbol in it. -/
theorem exists_of_targets {mnemonics symbols : List (List Char)} {item : AsmItem}
    (h : item.targets mnemonics symbols) : ∃ ws, item = .instr ws ∧ (∃ m ∈ mnemonics, m ∈ ws) ∧
      ∃ symbol ∈ symbols, ∃ word ∈ ws, symbol <:+: word := by
  cases item with
  | label name => cases h
  | instr ws =>
    simp only [targets] at h
    split at h
    · cases h
    · next mnemonic operands heq =>
      have hin : ∀ word ∈ mnemonic :: operands, word ∈ ws := fun word hword =>
        (List.dropWhile_suffix _).subset (heq ▸ hword)
      simp only [Bool.and_eq_true, List.contains_iff_mem, List.any_eq_true] at h
      obtain ⟨hmnemonic, op, hop, symbol, hsymbol, hmem⟩ := h
      exact ⟨ws, rfl, ⟨mnemonic, hmnemonic, hin _ List.mem_cons_self⟩, symbol, hmem, op,
        hin op (List.mem_cons_of_mem _ hop), infix_of_mem_symbolsOf hsymbol⟩

end AsmItem

end Funtrace
