/-
  The timestamps of ftrace lines.

  A line of the kernel begins with the name of a thread, which the traced program
  chooses.  Both the runtime and the decoder take what stands before the first `": "`
  for the timestamp; it is the timestamp unless the name has a `": "` of its own
  (`timestampSurvives_iff`).
-/
import Funtrace.Lib.Text
import Funtrace.Proof.FtraceLines
import Funtrace.Runtime.FtraceHandler

namespace Funtrace

/-! ## Lines of the kernel -/

/-- `<comm>-<pid> [<cpu>] <flags> <ts>: <event>`, with the blanks of `%16s` and `%-7d`. -/
structure KernelLine where
  indent : ℕ
  comm : List Char
  pid : List Char
  gap : ℕ
  cpu : List Char
  flags : List Char
  ts : UInt64
  event : List Char
  comm_size : (utf8Bytes (String.ofList comm)).length ≤ 15
  comm_chars : ∀ c ∈ comm, c ≠ '\n' ∧ c ≠ '\x00'
  pid_digits : ∀ c ∈ pid, c.isDigit
  cpu_digits : ∀ c ∈ cpu, c.isDigit
  flags_chars : ∀ c ∈ flags, c.isAlphanum ∨ c = '.'
  ts_ne : ts ≠ 0
  event_chars : '\n' ∉ event

namespace KernelLine
variable (l : KernelLine)

/-- What stands between the name and the timestamp. -/
def middle : List Char :=
  '-' :: (l.pid ++ List.replicate (l.gap + 1) ' ' ++ '[' :: (l.cpu ++ [']', ' '] ++ l.flags ++ [' ']))

/-- What stands before the timestamp. -/
def beforeTs : List Char := List.replicate l.indent ' ' ++ l.comm ++ l.middle

/-- The timestamp. -/
def tsDigits : List Char := Nat.toDigits 10 l.ts.toNat

/-- The whole line. -/
def text : List Char := l.beforeTs ++ l.tsDigits ++ ": ".toList ++ l.event

/-- Both scanners find the timestamp, and the decoder changes nothing else. -/
def TimestampSurvives : Prop :=
  FtraceHandler.parseTimestamp (utf8Bytes (String.ofList l.text)) = l.ts ∧
    ∀ f : UInt64 → String, parseFtraceLines (String.ofList l.text) (fun ts => some (f ts)) =
      some [⟨l.ts, String.ofList (l.beforeTs ++ (f l.ts).toList ++ ": ".toList ++ l.event)⟩]

end KernelLine

/-! ## Searching for the colon -/

theorem colonSpace : ": ".toList = [':', ' '] := by decide

/-- The search ends at a place where the pattern is, if not before it. -/
theorem length_charsBefore_le {pat rest : List Char} (h : pat <+: rest) : ∀ s : List Char,
    (charsBefore pat (s ++ rest)).length ≤ s.length
  | [] => by
    rw [List.nil_append]
    cases rest with
    | nil => exact Nat.le_refl 0
    | cons c cs =>
      rw [charsBefore, if_pos h]
  | c :: s => by
    rw [List.cons_append, charsBefore]
    split_ifs
    · exact Nat.zero_le _
    · exact Nat.succ_le_succ (length_charsBefore_le h s)

/-- The search ends at the first `": "`. -/
theorem charsBefore_colon (rest : List Char) : ∀ {cs : List Char}, ¬ [':', ' '] <:+: cs ++ [':'] →
    charsBefore [':', ' '] (cs ++ ':' :: ' ' :: rest) = cs
  | [], _ => by
    rw [List.nil_append, charsBefore, if_pos ⟨rest, rfl⟩]
  | c :: cs, h => by
    have hcs : ¬ [':', ' '] <:+: cs ++ [':'] := fun hin =>
      h (hin.trans (List.suffix_cons c _).isInfix)
    have hhere : ¬ [':', ' '] <+: c :: (cs ++ ':' :: ' ' :: rest) := by
      intro hpre
      rw [List.cons_prefix_cons] at hpre
      obtain ⟨rfl, hpre⟩ := hpre
      cases cs with
      | nil => simp at hpre
      | cons d cs =>
        rw [List.cons_append, List.cons_prefix_cons] at hpre
        obtain ⟨rfl, -⟩ := hpre
        exact h ⟨[], cs ++ [':'], rfl⟩
    rw [List.cons_append, charsBefore, if_neg hhere, charsBefore_colon rest hcs]

namespace FtraceHandler

theorem beforeColon_cons {b : UInt8} {bs found : List UInt8} (hb : b ≠ 0x3a ∨ bs.head? ≠ some 0x20)
    (h : beforeColon bs = some found) : beforeColon (b :: bs) = some (b :: found) := by
  cases bs with
  | nil => cases h
  | cons b' bs =>
    have hnot : ¬ (b = 0x3a ∧ b' = 0x20) := by
      rintro ⟨rfl, rfl⟩
      rcases hb with hb | hb
      · exact hb rfl
      · exact hb rfl
    rw [beforeColon, if_neg hnot, h]
    rfl

theorem beforeColon_skip {bs found : List UInt8} (h : beforeColon bs = some found) :
    ∀ {skip : List UInt8}, (∀ b ∈ skip, b ≠ 0x3a) → beforeColon (skip ++ bs) = some (skip ++ found)
  | [], _ => h
  | b :: skip, hskip => by
    obtain ⟨hb, hskip⟩ := List.forall_mem_cons.1 hskip
    exact beforeColon_cons (Or.inl hb) (beforeColon_skip h hskip)

theorem ne_of_ge {b k : UInt8} (hb : 0x80 ≤ b) (hk : k < 0x80) : b ≠ k := by
  rintro rfl
  exact absurd hb (UInt8.not_le.2 hk)

/-- A byte of ASCII begins the encoding of its own character only. -/
theorem head_utf8EncodeChar {c : Char} {b : UInt8} (hb : b < 0x80) (rest : List UInt8)
    (h : (String.utf8EncodeChar c ++ rest).head? = some b) : c.toNat = b.toNat := by
  rcases utf8EncodeChar_cases c with ⟨hlt, heq⟩ | ⟨-, hge⟩
  · rw [heq, List.cons_append, List.head?_cons, Option.some.injEq] at h
    rw [← h, UInt8.toNat_ofNat_of_lt' (by rw [UInt8.size]; omega)]
  · obtain ⟨b', bs, heq⟩ := List.exists_cons_of_ne_nil (@String.utf8EncodeChar_ne_nil c)
    rw [heq, List.cons_append, List.head?_cons, Option.some.injEq] at h
    exact absurd h (ne_of_ge (hge b' (by rw [heq]; exact List.mem_cons_self)) hb)

/-- **The search in bytes** ends where the search in characters does. -/
theorem beforeColon_utf8 (more : List UInt8) : ∀ {cs : List Char}, ¬ [':', ' '] <:+: cs ++ [':'] →
    beforeColon (cs.flatMap String.utf8EncodeChar ++ 0x3a :: 0x20 :: more) =
      some (cs.flatMap String.utf8EncodeChar)
  | [], _ => rfl
  | c :: cs, h => by
    have hcs : ¬ [':', ' '] <:+: cs ++ [':'] := fun hin =>
      h (hin.trans (List.suffix_cons c _).isInfix)
    have ih := beforeColon_utf8 more hcs
    rw [List.flatMap_cons, List.append_assoc]
    rcases utf8EncodeChar_cases c with ⟨hlt, heq⟩ | ⟨-, hge⟩
    · rw [heq, List.singleton_append]
      refine beforeColon_cons ?_ ih
      by_cases hcolon : UInt8.ofNat c.toNat = 0x3a
      · refine Or.inr fun hhead => ?_
        have hc : c = ':' := by
          have hnat := congrArg UInt8.toNat hcolon
          rw [UInt8.toNat_ofNat_of_lt' (by rw [UInt8.size]; omega)] at hnat
          exact Char.toNat_inj.1 hnat
        subst hc
        cases cs with
        | nil => simp at hhead
        | cons d cs =>
          rw [List.flatMap_cons, List.append_assoc] at hhead
          have hd : d = ' ' := Char.toNat_inj.1 (head_utf8EncodeChar (by decide) _ hhead)
          subst hd
          exact h ⟨[], cs ++ [':'], rfl⟩
      · exact Or.inl hcolon
    · exact beforeColon_skip ih fun b hb => ne_of_ge (hge b hb) (by decide)

/-! ## Reading digits -/

/-- The byte of a digit. -/
theorem digit_byte : ∀ d < 10, String.utf8EncodeChar (Nat.digitChar d) = [UInt8.ofNat (d + 48)] ∧
    UInt8.ofNat (d + 48) ≠ 0x20 ∧ ¬ (UInt8.ofNat (d + 48) < 0x30 ∨ 0x39 < UInt8.ofNat (d + 48)) ∧
      (UInt8.ofNat (d + 48) - 0x30).toUInt64 = UInt64.ofNat d := by
  decide

/-- **Digits are read** from the last one back to the blank before them. -/
theorem timestampLoop_toDigits (more : List UInt8) (n : ℕ) : ∀ time mult : UInt64,
    timestampLoop (((Nat.toDigits 10 n).flatMap String.utf8EncodeChar).reverse ++ 0x20 :: more) time
      mult = time + UInt64.ofNat n * mult := by
  induction n using Nat.strongRecOn with
  | ind n ih =>
    intro time mult
    rcases Nat.lt_or_ge n 10 with hlt | hge
    · obtain ⟨hbyte, hblank, hdigit, hvalue⟩ := digit_byte n hlt
      rw [Nat.toDigits_of_lt_base hlt, List.flatMap_singleton, hbyte, List.reverse_singleton,
        List.singleton_append, timestampLoop, if_neg hblank, if_neg hdigit, hvalue]
      rfl
    · obtain ⟨hbyte, hblank, hdigit, hvalue⟩ := digit_byte (n % 10) (Nat.mod_lt n (by decide))
      rw [Nat.toDigits_of_base_le (by decide) hge, List.flatMap_append, List.flatMap_singleton, hbyte,
        List.reverse_append, List.reverse_singleton, List.append_assoc, List.singleton_append,
        timestampLoop, if_neg hblank, if_neg hdigit, hvalue, ih (n / 10) (by omega)]
      have hn : UInt64.ofNat n = UInt64.ofNat (n / 10) * 10 + UInt64.ofNat (n % 10) := by
        conv_lhs => rw [← Nat.div_add_mod' n 10, UInt64.ofNat_add, UInt64.ofNat_mul]
        rfl
      rw [hn]
      grind

end FtraceHandler

/-- Numbers are read back. -/
theorem parseU64_toDigits {n : ℕ} (hn : n < 2 ^ 64) :
    parseU64 (Nat.toDigits 10 n) = some (UInt64.ofNat n) := by
  have hdigits : ∀ c ∈ Nat.toDigits 10 n, c.isDigit := fun c hc =>
    Nat.isDigit_of_mem_toDigits (by decide) (by decide) hc
  have hvalue : (Nat.toDigits 10 n).foldl (fun n d => n * 10 + (d.toNat - '0'.toNat)) 0 = n := by
    have hread := @Nat.ofDigitChars_ten_toDigits n
    rw [Nat.ofDigitChars_eq_foldl] at hread
    simpa only [Nat.mul_comm] using hread
  have hplus : ∀ ds, Nat.toDigits 10 n ≠ '+' :: ds := by
    intro ds heq
    exact absurd (hdigits '+' (by rw [heq]; exact List.mem_cons_self)) (by decide)
  have hne : Nat.toDigits 10 n ≠ [] ∧ (Nat.toDigits 10 n).all (·.isDigit) :=
    ⟨Nat.toDigits_ne_nil, List.all_eq_true.2 hdigits⟩
  unfold parseU64
  split
  · next ds heq => exact absurd heq (hplus ds)
  · rw [if_pos hne]
    simp only [hvalue]
    rw [if_pos hn]

/-! ## Lines -/

/-- A text without a line break is one line. -/
theorem linesOf_of_not_mem {cs : List Char} (hne : cs ≠ []) (h : '\n' ∉ cs) : linesOf cs = [cs] := by
  have hsplit : cs.splitOn '\n' = [cs] := List.splitOn_eq_singleton h
  have hlf : ¬ ['\n'] <:+ cs := fun hsuffix => h (hsuffix.subset (by simp))
  have hcr : ¬ ['\r', '\n'] <:+ cs := fun hsuffix => h (hsuffix.subset (by simp))
  unfold linesOf
  rw [hsplit]
  simp [hne, hlf, hcr]

namespace KernelLine
variable (l : KernelLine)

theorem middle_chars : ∀ c ∈ l.middle, c ≠ ':' ∧ c ≠ '\n' ∧ c ≠ '\x00' := by
  have hdigit : ∀ c : Char, c.isDigit → c ≠ ':' ∧ c ≠ '\n' ∧ c ≠ '\x00' := by
    refine fun c hc => ⟨?_, ?_, ?_⟩ <;> rintro rfl <;> exact absurd hc (by decide)
  have hflag : ∀ c : Char, c.isAlphanum ∨ c = '.' → c ≠ ':' ∧ c ≠ '\n' ∧ c ≠ '\x00' := by
    refine fun c hc => ⟨?_, ?_, ?_⟩ <;> rintro rfl <;> exact absurd hc (by decide)
  have hblank : ∀ c : Char, c = ' ' ∨ c = '-' ∨ c = '[' ∨ c = ']' →
      c ≠ ':' ∧ c ≠ '\n' ∧ c ≠ '\x00' := by
    rintro c (rfl | rfl | rfl | rfl) <;> decide
  intro c hc
  simp only [middle, List.mem_cons, List.mem_append, List.mem_replicate, List.not_mem_nil,
    or_false] at hc
  rcases hc with hc | (hc | ⟨-, hc⟩) | hc | ((hc | hc | hc) | hc) | hc
  · exact hblank c (by simp [hc])
  · exact hdigit c (l.pid_digits c hc)
  · exact hblank c (by simp [hc])
  · exact hblank c (by simp [hc])
  · exact hdigit c (l.cpu_digits c hc)
  · exact hblank c (by simp [hc])
  · exact hblank c (by simp [hc])
  · exact hflag c (l.flags_chars c hc)
  · exact hblank c (by simp [hc])

theorem tsDigits_isDigit : ∀ c ∈ l.tsDigits, c.isDigit := fun _ hc =>
  Nat.isDigit_of_mem_toDigits (by decide) (by decide) hc

/-- The timestamp stands after a blank. -/
theorem beforeTs_eq : ∃ front, l.beforeTs = front ++ [' '] := by
  refine ⟨List.replicate l.indent ' ' ++ l.comm ++ '-' :: (l.pid ++ List.replicate (l.gap + 1) ' ' ++
    '[' :: (l.cpu ++ [']', ' '] ++ l.flags)), ?_⟩
  simp only [beforeTs, middle, List.append_assoc, List.cons_append]

/-- No other `": "` comes first if there is none in the name. -/
theorem not_infix_before (h : ¬ [':', ' '] <:+: l.comm) :
    ¬ [':', ' '] <:+: l.beforeTs ++ l.tsDigits ++ [':'] := by
  have hdigits : ':' ∉ l.tsDigits ∧ ' ' ∉ l.tsDigits :=
    ⟨fun hc => absurd (l.tsDigits_isDigit _ hc) (by decide),
      fun hc => absurd (l.tsDigits_isDigit _ hc) (by decide)⟩
  intro hin
  rcases pair_infix_append hin with hin | hin | ⟨-, hhead⟩
  · rcases pair_infix_append hin with hin | hin | ⟨-, hhead⟩
    · rcases pair_infix_append hin with hin | hin | ⟨-, hhead⟩
      · rcases pair_infix_append hin with hin | hin | ⟨hlast, -⟩
        · exact absurd (List.eq_of_mem_replicate (mem_of_infix_pair hin).1) (by decide)
        · exact h hin
        · exact absurd (List.eq_of_mem_replicate (List.mem_of_getLast? hlast)) (by decide)
      · exact (l.middle_chars _ (mem_of_infix_pair hin).1).1 rfl
      · exact absurd hhead (by simp [middle])
    · exact hdigits.1 (mem_of_infix_pair hin).1
    · exact hdigits.2 (List.mem_of_head? hhead)
  · exact absurd (mem_of_infix_pair hin).2 (by decide)
  · exact absurd hhead (by decide)

theorem text_eq : l.text = (l.beforeTs ++ l.tsDigits) ++ ':' :: ' ' :: l.event := by
  simp only [text, colonSpace, List.append_assoc, List.cons_append, List.nil_append]

theorem before_chars : ∀ c ∈ l.beforeTs ++ l.tsDigits, c ≠ '\n' ∧ c ≠ '\x00' := by
  intro c hc
  simp only [beforeTs, List.mem_append, List.mem_replicate] at hc
  rcases hc with ((⟨-, rfl⟩ | hc) | hc) | hc
  · decide
  · exact l.comm_chars c hc
  · exact (l.middle_chars c hc).2
  · have hdigit := l.tsDigits_isDigit c hc
    constructor <;> rintro rfl <;> exact absurd hdigit (by decide)

/-! ## The runtime -/

/-- **The runtime reads the timestamp** of a line whose name has no `": "`. -/
theorem parseTimestamp_text (h : ¬ [':', ' '] <:+: l.comm) :
    FtraceHandler.parseTimestamp (utf8Bytes (String.ofList l.text)) = l.ts := by
  have hnonzero : ∀ b ∈ (l.beforeTs ++ l.tsDigits).flatMap String.utf8EncodeChar, b ≠ 0 := by
    intro b hb
    obtain ⟨c, hc, hb⟩ := List.mem_flatMap.1 hb
    rcases utf8EncodeChar_cases c with ⟨hlt, heq⟩ | ⟨-, hge⟩
    · rw [heq, List.mem_singleton] at hb
      rintro rfl
      have hnat := congrArg UInt8.toNat hb
      rw [UInt8.toNat_ofNat_of_lt' (by rw [UInt8.size]; omega)] at hnat
      exact (l.before_chars c hc).2 (Char.toNat_inj.1 hnat.symm)
    · exact FtraceHandler.ne_of_ge (hge b hb) (by decide)
  have hbytes : utf8Bytes (String.ofList l.text) =
      (l.beforeTs ++ l.tsDigits).flatMap String.utf8EncodeChar ++
        0x3a :: 0x20 :: l.event.flatMap String.utf8EncodeChar := by
    rw [utf8Bytes_ofList, text_eq, List.flatMap_append, List.flatMap_cons, List.flatMap_cons]
    rfl
  have hcstr : (utf8Bytes (String.ofList l.text)).takeWhile (· ≠ 0) =
      (l.beforeTs ++ l.tsDigits).flatMap String.utf8EncodeChar ++
        0x3a :: 0x20 :: (l.event.flatMap String.utf8EncodeChar).takeWhile (· ≠ 0) := by
    rw [hbytes, List.takeWhile_append_of_pos (by simpa using hnonzero)]
    rfl
  obtain ⟨front, hfront⟩ := l.beforeTs_eq
  have hrev : ((l.beforeTs ++ l.tsDigits).flatMap String.utf8EncodeChar).reverse =
      (l.tsDigits.flatMap String.utf8EncodeChar).reverse ++
        0x20 :: (front.flatMap String.utf8EncodeChar).reverse := by
    rw [hfront, List.flatMap_append, List.flatMap_append, List.reverse_append, List.reverse_append]
    rfl
  unfold FtraceHandler.parseTimestamp
  rw [hcstr, FtraceHandler.beforeColon_utf8 _ (l.not_infix_before h)]
  simp only
  rw [hrev, tsDigits, FtraceHandler.timestampLoop_toDigits, UInt64.ofNat_toNat]
  grind

/-! ## The decoder -/

theorem newline_not_mem_text : '\n' ∉ l.text := by
  rw [text_eq, List.mem_append]
  rintro (hc | hc)
  · exact (l.before_chars _ hc).1 rfl
  · simp only [List.mem_cons] at hc
    rcases hc with hc | hc | hc
    · exact absurd hc (by decide)
    · exact absurd hc (by decide)
    · exact l.event_chars hc

theorem linesOf_text : linesOf l.text = [l.text] :=
  linesOf_of_not_mem (by rw [text_eq]; simp) l.newline_not_mem_text

/-- The line is the only one, and is taken as one. -/
theorem parseFtraceLines_text (f : UInt64 → Option String) :
    parseFtraceLines (String.ofList l.text) f =
      (parseFtraceLine f l.text).map fun r => [r].filterMap id := by
  unfold parseFtraceLines
  rw [String.toList_ofList, linesOf_text, List.mapM_cons, List.mapM_nil]
  cases parseFtraceLine f l.text with
  | none => rfl
  | some r => rfl

/-- Whitespace ends the search for digits, and no digit is whitespace. -/
theorem takeWhile_tsDigits (rest : List Char) :
    (l.tsDigits.reverse ++ ' ' :: rest).takeWhile (fun c => !isWhitespace c) = l.tsDigits.reverse := by
  have hdigit : ∀ c ∈ l.tsDigits.reverse, (!isWhitespace c) = true := by
    intro c hc
    have hc := l.tsDigits_isDigit c (List.mem_reverse.1 hc)
    simp only [Char.isDigit, Bool.and_eq_true, decide_eq_true_eq, ge_iff_le, UInt32.le_iff_toNat_le] at hc
    simp only [isWhitespace, ← UInt32.toNat_inj, UInt32.le_iff_toNat_le, Bool.not_eq_true',
      Bool.or_eq_false_iff, beq_eq_false_iff_ne, ne_eq, Bool.and_eq_false_iff, decide_eq_false_iff_not]
    have h0 : '0'.val.toNat = 48 := by decide
    have h9 : '9'.val.toNat = 57 := by decide
    simp only [UInt32.reduceToNat] at hc ⊢
    omega
  rw [List.takeWhile_append_of_pos hdigit]
  rw [List.takeWhile_cons, if_neg (by decide), List.append_nil]

/-- **The decoder replaces the timestamp** of a line whose name has no `": "`. -/
theorem parseFtraceLine_text (h : ¬ [':', ' '] <:+: l.comm) (f : UInt64 → String) :
    parseFtraceLine (fun ts => some (f ts)) l.text =
      some (some ⟨l.ts, String.ofList (l.beforeTs ++ (f l.ts).toList ++ ": ".toList ++ l.event)⟩) := by
  have hin : ": ".toList <:+: l.text :=
    ⟨l.beforeTs ++ l.tsDigits, l.event, by rw [text_eq, colonSpace]; simp⟩
  have hhead : charsBefore ": ".toList l.text = l.beforeTs ++ l.tsDigits := by
    rw [colonSpace, text_eq, charsBefore_colon _ (l.not_infix_before h)]
  obtain ⟨front, hfront⟩ := l.beforeTs_eq
  have hts : ((l.beforeTs ++ l.tsDigits).reverse.takeWhile fun c => !isWhitespace c).reverse =
      l.tsDigits := by
    rw [hfront, List.reverse_append, List.reverse_append]
    exact (congrArg List.reverse (l.takeWhile_tsDigits front.reverse)).trans (List.reverse_reverse _)
  have hbefore : (l.beforeTs ++ l.tsDigits).take
      ((l.beforeTs ++ l.tsDigits).length - l.tsDigits.length) = l.beforeTs := by
    rw [List.length_append, Nat.add_sub_cancel, List.take_left']
    rfl
  have hafter : l.text.drop (l.beforeTs ++ l.tsDigits).length = ": ".toList ++ l.event := by
    rw [text_eq, List.drop_left', colonSpace]
    · rfl
    · rfl
  have hlast : l.beforeTs.getLast? = some ' ' := by rw [hfront, List.getLast?_append]; rfl
  unfold parseFtraceLine
  rw [if_pos hin]
  simp only [hhead, hts, hbefore, hafter, hlast]
  rw [if_neg (by decide), tsDigits, parseU64_toDigits l.ts.toNat_lt, UInt64.ofNat_toNat]
  simp only [Option.map_some, List.append_assoc]

end KernelLine

/-! ## Names that end the search -/

/-- Where the replaced text begins. -/
def fieldStart (line : List Char) : ℕ :=
  let head := charsBefore ": ".toList line
  head.length - ((head.reverse.takeWhile fun c => !isWhitespace c).reverse).length

/-- The new text of the timestamp stands where the line alone says. -/
theorem getElem?_parseFtraceLine {line : List Char} {c : Char} {ev : FtraceEvent}
    (h : parseFtraceLine (fun _ => some (String.singleton c)) line = some (some ev)) :
    ev.line.toList[fieldStart line]? = some c := by
  unfold parseFtraceLine at h
  split at h
  · simp only at h
    split at h
    · cases h
    · split at h
      · cases h
      · split at h
        · cases h
        · next heq =>
          rw [Option.map_some, Option.some.injEq, Option.some.injEq] at h
          subst h
          have hle : fieldStart line ≤ (charsBefore ": ".toList line).length := Nat.sub_le _ _
          simp only [String.toList_ofList]
          rw [List.append_assoc, List.getElem?_append_right]
          · rw [List.length_take]
            simp only [fieldStart] at hle ⊢
            rw [Nat.min_eq_left hle, Nat.sub_self]
            simp
          · rw [List.length_take]
            exact Nat.min_le_left _ _
  · cases h

namespace KernelLine
variable (l : KernelLine)

/-- **Timestamps survive** exactly if the name of the thread has no `": "`. -/
theorem timestampSurvives_iff : l.TimestampSurvives ↔ ¬ ": ".toList <:+: l.comm := by
  rw [colonSpace]
  constructor
  · rintro ⟨-, hline⟩ ⟨u, v, hcomm⟩
    have hstart : fieldStart l.text < l.beforeTs.length := by
      have htext : l.text = (List.replicate l.indent ' ' ++ u) ++ ([':', ' '] ++ (v ++ l.middle ++
          l.tsDigits ++ ": ".toList ++ l.event)) := by
        simp only [text, beforeTs, ← hcomm, List.append_assoc]
      have hle : (charsBefore ": ".toList l.text).length ≤ l.indent + u.length := by
        have hle := @length_charsBefore_le ": ".toList ([':', ' '] ++ (v ++ l.middle ++ l.tsDigits ++
          ": ".toList ++ l.event)) (List.prefix_append _ _) (List.replicate l.indent ' ' ++ u)
        rw [← htext, List.length_append, List.length_replicate] at hle
        exact hle
      have hcomm := congrArg List.length hcomm
      simp only [List.length_append, List.length_cons, List.length_nil] at hcomm
      have hfield : fieldStart l.text ≤ (charsBefore ": ".toList l.text).length := Nat.sub_le _ _
      rw [beforeTs, List.length_append, List.length_append, List.length_replicate]
      omega
    have hchar (c : Char) : l.beforeTs[fieldStart l.text]? = some c := by
      have hone := hline fun _ => String.singleton c
      rw [parseFtraceLines_text] at hone
      obtain ⟨r, hr, hone⟩ := Option.map_eq_some_iff.1 hone
      cases r with
      | none => cases hone
      | some ev =>
        have hev := getElem?_parseFtraceLine hr
        rw [show ev = _ from (List.cons.inj hone).1, String.toList_ofList, List.append_assoc,
          List.append_assoc, List.getElem?_append_left hstart] at hev
        exact hev
    exact absurd ((hchar '#').symm.trans (hchar '$')) (by decide)
  · intro h
    refine ⟨l.parseTimestamp_text h, fun f => ?_⟩
    rw [parseFtraceLines_text, parseFtraceLine_text _ h]
    rfl

end KernelLine

theorem forall_of_all {p : Char → Prop} [DecidablePred p] {cs : List Char}
    (h : cs.all (fun c => decide (p c)) = true) : ∀ c ∈ cs, p c := fun c hc =>
  of_decide_eq_true (List.all_eq_true.1 h c hc)

/-- A thread named `a: b`. -/
theorem not_timestampSurvives : ¬ ∀ l : KernelLine, l.TimestampSurvives := by
  intro h
  have hsurvives := h
    { indent := 12
      comm := "a: b".toList
      pid := "7".toList
      gap := 6
      cpu := "000".toList
      flags := ".....".toList
      ts := 42
      event := "sched_switch: next_pid=8".toList
      comm_size := by decide
      comm_chars := forall_of_all (by decide)
      pid_digits := forall_of_all (by decide)
      cpu_digits := forall_of_all (by decide)
      flags_chars := forall_of_all (by decide)
      ts_ne := by decide
      event_chars := by decide }
  exact absurd hsurvives.1 (by decide +kernel)

end Funtrace
