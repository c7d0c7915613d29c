/-
  The textual parts of the decoder: printing of rational numbers (`rat2dec`) and
  the lines of ftrace data (`parse_ftrace_lines` in `funtrace2viz/src/main.rs`).

  Strings are taken apart as lists of characters.  `none` stands for a panic.
-/
import Mathlib.Algebra.Order.Field.Rat
import Funtrace.Lib.Words
import Funtrace.Viz.ProcAddr2Sym

namespace Funtrace

/-! ## Decimal numbers -/

/-- The `for _ in 0..decimal_places` loop of `rat2dec`. -/
def decimalDigits (denominator : ℕ) : ℕ → ℕ → String
  | 0, _ => ""
  | places + 1, remainder =>
    let quotient := remainder * 10 / denominator
    let remainder := remainder * 10 % denominator
    toString quotient ++ if remainder = 0 then "" else decimalDigits denominator places remainder

/-- `rat2dec`. -/
def rat2dec (rat : ℚ) (decimalPlaces : ℕ) : String :=
  let rounded := |rat| + 5 / 10 ^ (decimalPlaces + 1)
  let quotient := rounded.num.toNat / rounded.den
  let remainder := rounded.num.toNat % rounded.den
  (if rat < 0 then "-" else "") ++ toString quotient ++
    if remainder = 0 then "" else "." ++ decimalDigits rounded.den decimalPlaces remainder

/-! ## Ftrace lines -/

/-- `FtraceEvent`. -/
structure FtraceEvent where
  timestamp : UInt64
  line : String
deriving DecidableEq

/-- `str::parse::<u64>`: an optional `+` and digits, below `2^64`. -/
def parseU64 (s : List Char) : Option UInt64 :=
  let digits := match s with
    | '+' :: ds => ds
    | ds => ds
  if digits ≠ [] ∧ digits.all (·.isDigit) then
    let n := digits.foldl (fun n d => n * 10 + (d.toNat - '0'.toNat)) 0
    if n < 2 ^ 64 then some (UInt64.ofNat n) else none
  else none

/-- `str::lines`: a final line break starts no line, `\r` before one is dropped. -/
def linesOf (s : List Char) : List (List Char) :=
  let ls := s.splitOn '\n'
  let ls := if ls.getLast? = some [] then ls.dropLast.map (· ++ ['\n'])
    else ls.dropLast.map (· ++ ['\n']) ++ ls.getLast?.toList
  ls.map fun l =>
    if ['\r', '\n'] <:+ l then l.take (l.length - 2)
    else if ['\n'] <:+ l then l.take (l.length - 1) else l

/-- What a line of ftrace data gives: `ok none` if it is no event.  The slice after
    the blank before the timestamp takes the blank to be one byte long, and panics
    otherwise. -/
def parseFtraceLine (transformTimestamp : UInt64 → Option String) (line : List Char) :
    Option (Option FtraceEvent) :=
  if ": ".toList <:+: line then
    let head := charsBefore ": ".toList line
    let afterTs := line.drop head.length
    let ts := (head.reverse.takeWhile fun c => !isWhitespace c).reverse
    let beforeTs := head.take (head.length - ts.length)
    match beforeTs.getLast? with
    | none => some none
    | some blank =>
      if blank.utf8Size ≠ 1 then none
      else match parseU64 ts with
        | none => some none
        | some timestamp => (transformTimestamp timestamp).map fun s =>
            some ⟨timestamp, String.ofList (beforeTs ++ s.toList ++ afterTs)⟩
  else some none

/-- `parse_ftrace_lines`. -/
def parseFtraceLines (input : String) (transformTimestamp : UInt64 → Option String) :
    Option (List FtraceEvent) :=
  ((linesOf input.toList).mapM (parseFtraceLine transformTimestamp)).map fun r =>
    r.filterMap id

end Funtrace
