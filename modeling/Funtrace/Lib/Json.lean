/-
  JSON texts.

  `Derives` is the grammar of JSON, with the value that a text stands for.  It has one
  judgement for all nonterminals, so that what holds of all texts is proved by one
  induction: `scan_of_derives` says that a text closes all the braces and quotes that
  it opens.
-/
import Mathlib.Data.List.Basic
import Mathlib.Algebra.Group.Int.Defs
import Funtrace.Lib.Hex

namespace Funtrace

/-- A JSON value.  Numbers are kept as they are written, and so are the fields of objects. -/
inductive Json where
  | null
  | bool (b : Bool)
  | num (literal : String)
  | str (s : String)
  | arr (items : List Json)
  | obj (fields : List (String × Json))

/-! ## Grammar -/

namespace Json

/-- White space between tokens. -/
def IsBlank (s : String) : Prop := ∀ c ∈ s.toList, c = ' ' ∨ c = '\t' ∨ c = '\n' ∨ c = '\r'

-- Characters are also a finite type, whose elements must not be tried one by one.
instance : DecidablePred IsBlank := fun s => List.decidableBAll _ s.toList

/-- One digit or more. -/
def IsDigits (ds : List Char) : Prop := ds ≠ [] ∧ ∀ c ∈ ds, c.isDigit

/-- A sign, digits without a leading zero, a fraction and an exponent. -/
def IsNumber (s : String) : Prop :=
  ∃ sign whole fraction exponent : List Char,
    s.toList = sign ++ whole ++ fraction ++ exponent ∧ (sign = [] ∨ sign = ['-']) ∧
    IsDigits whole ∧ (whole.head? = some '0' → whole = ['0']) ∧
    (fraction = [] ∨ ∃ ds, fraction = '.' :: ds ∧ IsDigits ds) ∧
    (exponent = [] ∨ ∃ e expSign ds, exponent = e :: (expSign ++ ds) ∧ (e = 'e' ∨ e = 'E') ∧
      (expSign = [] ∨ expSign = ['+'] ∨ expSign = ['-']) ∧ IsDigits ds)

/-- The characters that are escaped by a letter. -/
def escapes : List (Char × Char) :=
  [('"', '"'), ('\\', '\\'), ('/', '/'), ('b', '\x08'), ('f', '\x0c'), ('n', '\n'), ('r', '\r'),
    ('t', '\t')]

/-- The number that the four digits of an escape stand for. -/
def hexValue? (a b c d : Char) : Option ℕ := do
  return (((← hexDigit? a) * 16 + (← hexDigit? b)) * 16 + (← hexDigit? c)) * 16 + (← hexDigit? d)

/-- The characters between the quotes of a string, and what they stand for. -/
inductive Unquotes : List Char → List Char → Prop where
  | nil : Unquotes [] []
  | plain {c s t} : c ≠ '"' → c ≠ '\\' → 0x20 ≤ c.toNat → Unquotes s t → Unquotes (c :: s) (c :: t)
  | escape {e c s t} : (e, c) ∈ escapes → Unquotes s t → Unquotes ('\\' :: e :: s) (c :: t)
  | unicode {a b c d n s t} : hexValue? a b c d = some n → n.isValidChar → Unquotes s t →
      Unquotes ('\\' :: 'u' :: a :: b :: c :: d :: s) (Char.ofNat n :: t)
  | surrogates {a b c d a' b' c' d' n n' s t} : hexValue? a b c d = some n →
      hexValue? a' b' c' d' = some n' → 0xd800 ≤ n → n < 0xdc00 → 0xdc00 ≤ n' → n' < 0xe000 →
      Unquotes s t →
      Unquotes ('\\' :: 'u' :: a :: b :: c :: d :: '\\' :: 'u' :: a' :: b' :: c' :: d' :: s)
        (Char.ofNat (0x10000 + (n - 0xd800) * 0x400 + (n' - 0xdc00)) :: t)

/-- A string in quotes. -/
def Quotes (text s : String) : Prop :=
  ∃ body, text = "\"" ++ String.ofList body ++ "\"" ∧ Unquotes body s.toList

/-- What a text may stand for: a value, a value with blanks around it, the items of an array or
    the fields of an object. -/
inductive Nonterminal where
  | value (v : Json)
  | padded (v : Json)
  | items (vs : List Json)
  | fields (fs : List (String × Json))

/-- **The grammar of JSON.** -/
inductive Derives : Nonterminal → String → Prop where
  | null : Derives (.value .null) "null"
  | true : Derives (.value (.bool true)) "true"
  | false : Derives (.value (.bool false)) "false"
  | num {t} : IsNumber t → Derives (.value (.num t)) t
  | str {s t} : Quotes t s → Derives (.value (.str s)) t
  | emptyArr {w} : IsBlank w → Derives (.value (.arr [])) ("[" ++ w ++ "]")
  | arr {vs t} : Derives (.items vs) t → Derives (.value (.arr vs)) ("[" ++ t ++ "]")
  | emptyObj {w} : IsBlank w → Derives (.value (.obj [])) ("\x7b" ++ w ++ "\x7d")
  | obj {fs t} : Derives (.fields fs) t → Derives (.value (.obj fs)) ("\x7b" ++ t ++ "\x7d")
  | padded {v w t w'} : IsBlank w → Derives (.value v) t → IsBlank w' →
      Derives (.padded v) (w ++ t ++ w')
  | item {v t} : Derives (.padded v) t → Derives (.items [v]) t
  | items {v vs t ts} : Derives (.padded v) t → Derives (.items vs) ts →
      Derives (.items (v :: vs)) (t ++ "," ++ ts)
  | field {k v w q w' t} : IsBlank w → Quotes q k → IsBlank w' → Derives (.padded v) t →
      Derives (.fields [(k, v)]) (w ++ q ++ w' ++ ":" ++ t)
  | fields {k v w q w' t fs ts} : IsBlank w → Quotes q k → IsBlank w' → Derives (.padded v) t →
      Derives (.fields fs) ts → Derives (.fields ((k, v) :: fs)) (w ++ q ++ w' ++ ":" ++ t ++ "," ++ ts)

/-- A text is that of a value, with blanks around it. -/
def Reads (text : String) (v : Json) : Prop := Derives (.padded v) text

/-! ## Printing -/

/-- A string that is written as it is. -/
def IsPlain (s : String) : Prop := ∀ c ∈ s.toList, c ≠ '"' ∧ c ≠ '\\' ∧ 0x20 ≤ c.toNat

instance : DecidablePred IsPlain := fun s => List.decidableBAll _ s.toList

theorem unquotes_plain : ∀ {cs : List Char}, (∀ c ∈ cs, c ≠ '"' ∧ c ≠ '\\' ∧ 0x20 ≤ c.toNat) →
    Unquotes cs cs
  | [], _ => .nil
  | c :: cs, h => by
    obtain ⟨⟨hquote, hslash, hcontrol⟩, hcs⟩ := List.forall_mem_cons.1 h
    exact .plain hquote hslash hcontrol (unquotes_plain hcs)

theorem quotes_plain {s : String} (h : IsPlain s) : Quotes ("\"" ++ s ++ "\"") s :=
  ⟨s.toList, by rw [String.ofList_toList], unquotes_plain h⟩

/-- A hexadecimal digit, in lower case. -/
def hexDigit (n : ℕ) : Char := if n < 10 then Char.ofNat ('0'.toNat + n) else Char.ofNat ('a'.toNat + n - 10)

/-- A character in quotes: escaped by a letter, by its number or not at all. -/
def quoteChar (c : Char) : List Char :=
  if c = '"' then ['\\', '"']
  else if c = '\\' then ['\\', '\\']
  else if c = '\x08' then ['\\', 'b']
  else if c = '\x0c' then ['\\', 'f']
  else if c = '\n' then ['\\', 'n']
  else if c = '\r' then ['\\', 'r']
  else if c = '\t' then ['\\', 't']
  else if c.toNat < 0x20 then
    ['\\', 'u', '0', '0', hexDigit (c.toNat / 16), hexDigit (c.toNat % 16)]
  else [c]

/-- A string in quotes, as serializers print it. -/
def quote (s : String) : String := "\"" ++ String.ofList (s.toList.flatMap quoteChar) ++ "\""

theorem unquotes_quoteChar {c : Char} {s t : List Char} (h : Unquotes s t) :
    Unquotes (quoteChar c ++ s) (c :: t) := by
  unfold quoteChar
  split_ifs with hquote hslash hb hf hn hr ht hcontrol
  · exact .escape (by rw [hquote]; decide) h
  · exact .escape (by rw [hslash]; decide) h
  · exact .escape (by rw [hb]; decide) h
  · exact .escape (by rw [hf]; decide) h
  · exact .escape (by rw [hn]; decide) h
  · exact .escape (by rw [hr]; decide) h
  · exact .escape (by rw [ht]; decide) h
  · have hhex : ∀ n < 0x20, hexValue? '0' '0' (hexDigit (n / 16)) (hexDigit (n % 16)) = some n := by
      decide
    have hunicode := Unquotes.unicode (hhex c.toNat hcontrol) c.valid h
    rwa [Char.ofNat_toNat] at hunicode
  · exact .plain hquote hslash (by omega) h

theorem quotes_quote (s : String) : Quotes (quote s) s := by
  refine ⟨_, rfl, ?_⟩
  induction s.toList with
  | nil => exact .nil
  | cons c cs ih => exact unquotes_quoteChar ih

theorem isBlank_empty : IsBlank "" := fun c hc => by cases hc

theorem isBlank_space : IsBlank " " := fun c hc => by simp_all

theorem isBlank_newline : IsBlank "\n" := fun c hc => by simp_all

namespace Derives

theorem congr {x : Nonterminal} {t t' : String} (h : Derives x t) (heq : t = t') : Derives x t' :=
  heq ▸ h

theorem pad {v : Json} {t : String} (h : Derives (.value v) t) : Derives (.padded v) t := by
  have hpad := Derives.padded isBlank_empty h isBlank_empty
  rwa [String.empty_append, String.append_empty] at hpad

/-- A field without blanks. -/
theorem oneField {q k t : String} {v : Json} (hq : Quotes q k) (h : Derives (.padded v) t) :
    Derives (.fields [(k, v)]) (q ++ ":" ++ t) := by
  have hfield := Derives.field isBlank_empty hq isBlank_empty h
  rwa [String.empty_append, String.append_empty] at hfield

theorem addField {q k t ts : String} {v : Json} {fs : List (String × Json)} (hq : Quotes q k)
    (h : Derives (.padded v) t) (hfs : Derives (.fields fs) ts) :
    Derives (.fields ((k, v) :: fs)) (q ++ ":" ++ t ++ "," ++ ts) := by
  have hfields := Derives.fields isBlank_empty hq isBlank_empty h hfs
  rwa [String.empty_append, String.append_empty] at hfields

/-- A field with a space after the colon. -/
theorem oneSpacedField {w k t w' : String} {v : Json} (hw : IsBlank w) (hk : IsPlain k)
    (h : Derives (.value v) t) (hw' : IsBlank w') :
    Derives (.fields [(k, v)]) (w ++ "\"" ++ k ++ "\": " ++ t ++ w') := by
  refine (Derives.field hw (quotes_plain hk) isBlank_empty (.padded isBlank_space h hw')).congr ?_
  rw [← String.toList_inj]
  simp

theorem addSpacedField {w k t ts : String} {v : Json} {fs : List (String × Json)} (hw : IsBlank w)
    (hk : IsPlain k) (h : Derives (.value v) t) (hfs : Derives (.fields fs) ts) :
    Derives (.fields ((k, v) :: fs)) (w ++ "\"" ++ k ++ "\": " ++ t ++ "," ++ ts) := by
  refine (Derives.fields hw (quotes_plain hk) isBlank_empty
    (.padded isBlank_space h isBlank_empty) hfs).congr ?_
  rw [← String.toList_inj]
  simp

end Derives

/-- Fields with plain keys and the texts of their values. -/
def fieldsText : List (String × Json × String) → String
  | [] => ""
  | [f] => "\"" ++ f.1 ++ "\":" ++ f.2.2
  | f :: f' :: fs => "\"" ++ f.1 ++ "\":" ++ f.2.2 ++ "," ++ fieldsText (f' :: fs)

theorem derives_fieldsText : ∀ {fs : List (String × Json × String)}, fs ≠ [] →
    (∀ f ∈ fs, IsPlain f.1 ∧ Derives (.padded f.2.1) f.2.2) →
      Derives (.fields (fs.map fun f => (f.1, f.2.1))) (fieldsText fs)
  | [], hne, _ => absurd rfl hne
  | [f], _, h => by
    obtain ⟨hk, hv⟩ := h f List.mem_cons_self
    refine (Derives.oneField (quotes_plain hk) hv).congr ?_
    rw [← String.toList_inj]
    simp [fieldsText]
  | f :: f' :: fs, _, h => by
    obtain ⟨⟨hk, hv⟩, hfs⟩ := List.forall_mem_cons.1 h
    refine (Derives.addField (quotes_plain hk) hv (derives_fieldsText (by simp) hfs)).congr ?_
    rw [← String.toList_inj]
    simp [fieldsText]

/-- **An object with plain keys.** -/
theorem derives_object (fs : List (String × Json × String)) (hne : fs ≠ [])
    (h : ∀ f ∈ fs, IsPlain f.1 ∧ Derives (.padded f.2.1) f.2.2) :
    Derives (.value (.obj (fs.map fun f => (f.1, f.2.1)))) ("\x7b" ++ fieldsText fs ++ "\x7d") :=
  .obj (derives_fieldsText hne h)

/-- Texts with `sep` between them and `last` at the end. -/
def joinWith (sep last : String) : List String → String
  | [] => ""
  | [t] => t ++ last
  | t :: t' :: ts => t ++ sep ++ joinWith sep last (t' :: ts)

/-- A loop that compares indices to tell which element is the last. -/
theorem join_zipIdx {α : Type} (text : α → String) (sep last : String) : ∀ (l : List α) (k n : ℕ),
    n = k + l.length - 1 → String.join ((l.zipIdx k).map fun x =>
      text x.1 ++ if x.2 = n then last else sep) = joinWith sep last (l.map text)
  | [], _, _, _ => rfl
  | [a], k, n, hn => by
    have hn : k = n := by simpa using hn.symm
    simp [joinWith, hn]
  | a :: b :: l, k, n, hn => by
    have ih := join_zipIdx text sep last (b :: l) (k + 1) n (by rw [hn]; simp; omega)
    have hne : k ≠ n := by
      rw [hn, List.length_cons, List.length_cons]
      omega
    rw [List.zipIdx_cons, List.map_cons, String.join_cons, ih, if_neg hne]
    rfl

/-- **An object with a field on each line.** -/
theorem derives_lines {α : Type} (field : α → String × Json) (text : α → String) {l : List α}
    (h : ∀ a ∈ l, ∃ q t, text a = q ++ ":" ++ t ∧ Quotes q (field a).1 ∧
      Derives (.value (field a).2) t) :
    Derives (.value (.obj (l.map field)))
      ("\x7b" ++ ("\n" ++ joinWith ",\n" "\n" (l.map text)) ++ "\x7d") := by
  have hfields : ∀ l : List α, l ≠ [] → (∀ a ∈ l, ∃ q t, text a = q ++ ":" ++ t ∧
      Quotes q (field a).1 ∧ Derives (.value (field a).2) t) →
      Derives (.fields (l.map field)) ("\n" ++ joinWith ",\n" "\n" (l.map text)) := by
    intro l
    induction l with
    | nil => exact fun hne _ => absurd rfl hne
    | cons a l ih =>
      intro _ h
      obtain ⟨⟨q, t, htext, hq, hv⟩, hl⟩ := List.forall_mem_cons.1 h
      cases l with
      | nil =>
        refine (Derives.field isBlank_newline hq isBlank_empty
          (.padded isBlank_empty hv isBlank_newline)).congr ?_
        rw [List.map_singleton, joinWith, htext, ← String.toList_inj]
        simp
      | cons b l =>
        refine (Derives.fields isBlank_newline hq isBlank_empty hv.pad
          (ih (by simp) hl)).congr ?_
        rw [List.map_cons, List.map_cons, List.map_cons, joinWith, htext, ← String.toList_inj]
        simp
  cases l with
  | nil => exact .emptyObj (by rw [List.map_nil, joinWith, String.append_empty]; exact isBlank_newline)
  | cons a l => exact .obj (hfields (a :: l) (by simp) h)

/-! ## Numbers -/

theorem isDigits_toDigits (n : ℕ) : IsDigits (Nat.toDigits 10 n) :=
  ⟨Nat.toDigits_ne_nil, fun _ hc => Nat.isDigit_of_mem_toDigits (by decide) (by decide) hc⟩

/-- Numerals have no leading zero. -/
theorem head_toDigits (n : ℕ) : (Nat.toDigits 10 n).head? = some '0' → Nat.toDigits 10 n = ['0'] := by
  induction n using Nat.strongRecOn with
  | ind n ih =>
    rcases Nat.lt_or_ge n 10 with hlt | hge
    · rw [Nat.toDigits_of_lt_base hlt]
      intro hzero
      rw [Option.some.inj hzero]
    · rw [Nat.toDigits_of_base_le (by decide) hge]
      intro hzero
      rw [List.head?_append_of_ne_nil _ Nat.toDigits_ne_nil] at hzero
      -- then the number without its last digit would be zero
      have hten := congrArg (fun ds => Nat.ofDigitChars 10 ds 0)
        (ih (n / 10) (Nat.div_lt_self (by omega) (by decide)) hzero)
      rw [Nat.ofDigitChars_ten_toDigits] at hten
      have hpos : 0 < n / 10 := Nat.div_pos hge (by decide)
      rw [hten] at hpos
      exact absurd hpos (by decide)

theorem isNumber_toString (n : ℕ) : IsNumber (toString n) := by
  refine ⟨[], Nat.toDigits 10 n, [], [], ?_, Or.inl rfl, isDigits_toDigits n, head_toDigits n,
    Or.inl rfl, Or.inl rfl⟩
  rw [Nat.toString_eq_ofList_toDigits, String.toList_ofList]
  simp

/-! ## Scanning -/

/-- Where a scan of a text stands: outside of strings, in one, or after a backslash in one. -/
inductive Place where
  | outside
  | inside
  | escaped
deriving DecidableEq

/-- One character: the place, and the number of brackets and braces that are open. -/
def scanChar (s : Place × ℤ) (c : Char) : Place × ℤ :=
  match s.1 with
  | .outside =>
    if c = '"' then (.inside, s.2)
    else if c = '[' ∨ c = '\x7b' then (.outside, s.2 + 1)
    else if c = ']' ∨ c = '\x7d' then (.outside, s.2 - 1)
    else s
  | .inside => if c = '"' then (.outside, s.2) else if c = '\\' then (.escaped, s.2) else s
  | .escaped => (.inside, s.2)

/-- Where a scanner is, and how deep, after a text. -/
def scan (s : Place × ℤ) (text : String) : Place × ℤ := text.toList.foldl scanChar s

@[simp] theorem scan_append (s : Place × ℤ) (t t' : String) : scan s (t ++ t') = scan (scan s t) t' := by
  rw [scan, scan, scan, String.toList_append, List.foldl_append]

/-- A character that opens and closes nothing. -/
def IsNeutral (c : Char) : Prop :=
  c ≠ '"' ∧ c ≠ '[' ∧ c ≠ '\x7b' ∧ c ≠ ']' ∧ c ≠ '\x7d'

theorem scan_neutral {text : String} (h : ∀ c ∈ text.toList, IsNeutral c) (n : ℤ) :
    scan (.outside, n) text = (.outside, n) := by
  unfold scan
  induction htext : text.toList generalizing text with
  | nil => rfl
  | cons c cs ih =>
    rw [htext] at h
    obtain ⟨⟨hquote, hopen, hopen', hclose, hclose'⟩, hcs⟩ := List.forall_mem_cons.1 h
    rw [List.foldl_cons, scanChar]
    simp only [hquote, hopen, hopen', hclose, hclose', or_self, if_false]
    exact @ih (String.ofList cs) (by rwa [String.toList_ofList]) String.toList_ofList

theorem isNeutral_of_isBlank {s : String} (h : IsBlank s) : ∀ c ∈ s.toList, IsNeutral c := by
  intro c hc
  rcases h c hc with rfl | rfl | rfl | rfl <;> unfold IsNeutral <;> decide

theorem isNeutral_of_isDigit {c : Char} (h : c.isDigit) : IsNeutral c := by
  unfold IsNeutral
  refine ⟨?_, ?_, ?_, ?_, ?_⟩ <;>
  · rintro rfl
    exact absurd h (by decide)

theorem isNeutral_of_isNumber {s : String} (h : IsNumber s) : ∀ c ∈ s.toList, IsNeutral c := by
  obtain ⟨sign, whole, fraction, exponent, hs, hsign, hwhole, -, hfraction, hexponent⟩ := h
  have hdigits {ds : List Char} (h : IsDigits ds) : ∀ c ∈ ds, IsNeutral c := fun c hc =>
    isNeutral_of_isDigit (h.2 c hc)
  have hneutral {c : Char} (h : c = '-' ∨ c = '+' ∨ c = '.' ∨ c = 'e' ∨ c = 'E') : IsNeutral c := by
    rcases h with rfl | rfl | rfl | rfl | rfl <;> unfold IsNeutral <;> decide
  rw [hs]
  intro c hc
  rcases List.mem_append.1 hc with hc | hc
  · rcases List.mem_append.1 hc with hc | hc
    · rcases List.mem_append.1 hc with hc | hc
      · rcases hsign with rfl | rfl
        · cases hc
        · exact hneutral (Or.inl (List.mem_singleton.1 hc))
      · exact hdigits hwhole c hc
    · rcases hfraction with rfl | ⟨ds, rfl, hds⟩
      · cases hc
      · rcases List.mem_cons.1 hc with rfl | hc
        exacts [hneutral (by decide), hdigits hds c hc]
  · rcases hexponent with rfl | ⟨e, expSign, ds, rfl, he, hexpSign, hds⟩
    · cases hc
    · rcases List.mem_cons.1 hc with rfl | hc
      · exact hneutral (Or.inr (Or.inr (Or.inr he)))
      · rcases List.mem_append.1 hc with hc | hc
        · rcases hexpSign with rfl | rfl | rfl
          · cases hc
          · exact hneutral (Or.inr (Or.inl (List.mem_singleton.1 hc)))
          · exact hneutral (Or.inl (List.mem_singleton.1 hc))
        · exact hdigits hds c hc

theorem hexDigit_ne {c : Char} {n : ℕ} (h : hexDigit? c = some n) : c ≠ '"' ∧ c ≠ '\\' := by
  constructor <;>
  · rintro rfl
    exact absurd (Option.isSome_iff_exists.2 ⟨n, h⟩) (by decide)

theorem hexValue_ne {a b c d : Char} {n : ℕ} (h : hexValue? a b c d = some n) :
    ∀ x ∈ [a, b, c, d], x ≠ '"' ∧ x ≠ '\\' := by
  simp only [hexValue?, Option.bind_eq_bind, Option.pure_def, Option.bind_eq_some_iff] at h
  obtain ⟨na, ha, nb, hb, nc, hc, nd, hd, -⟩ := h
  simp only [List.forall_mem_cons, List.not_mem_nil, false_imp_iff, implies_true, and_true]
  exact ⟨hexDigit_ne ha, hexDigit_ne hb, hexDigit_ne hc, hexDigit_ne hd⟩

theorem foldl_inside {cs : List Char} (h : ∀ c ∈ cs, c ≠ '"' ∧ c ≠ '\\') (n : ℤ) :
    cs.foldl scanChar (.inside, n) = (.inside, n) := by
  induction cs with
  | nil => rfl
  | cons c cs ih =>
    obtain ⟨⟨hquote, hslash⟩, hcs⟩ := List.forall_mem_cons.1 h
    rw [List.foldl_cons, scanChar]
    simp only [hquote, hslash, if_false]
    exact ih hcs

/-- A string is scanned up to its closing quote. -/
theorem foldl_unquotes {body s : List Char} (h : Unquotes body s) (n : ℤ) :
    body.foldl scanChar (.inside, n) = (.inside, n) := by
  induction h with
  | nil => rfl
  | plain hquote hslash _ _ ih =>
    rw [List.foldl_cons, scanChar]
    simp only [hquote, hslash, if_false]
    exact ih
  | escape _ _ ih => exact ih
  | @unicode a b c d m s t hhex _ _ ih =>
    have hfold := foldl_inside (hexValue_ne hhex) n
    have hrest := congrArg (fun p => s.foldl scanChar p) hfold
    exact hrest.trans ih
  | @surrogates a b c d a' b' c' d' m m' s t hhex hhex' _ _ _ _ _ ih =>
    have hfold := foldl_inside (hexValue_ne hhex) n
    have hfold' := foldl_inside (hexValue_ne hhex') n
    have hsecond := congrArg (fun p => (['\\', 'u', a', b', c', d'] ++ s).foldl scanChar p) hfold
    have hrest := congrArg (fun p => s.foldl scanChar p) hfold'
    exact (hsecond.trans hrest).trans ih

theorem scan_quotes {text s : String} (h : Quotes text s) (n : ℤ) :
    scan (.outside, n) text = (.outside, n) := by
  obtain ⟨body, rfl, hbody⟩ := h
  have hopen : scan (.outside, n) "\"" = (.inside, n) := rfl
  have hinside : scan (.inside, n) (String.ofList body) = (.inside, n) := by
    rw [scan, String.toList_ofList, foldl_unquotes hbody]
  rw [scan_append, scan_append, hopen, hinside]
  rfl

/-- **A text closes what it opens.** -/
theorem scan_of_derives {x : Nonterminal} {text : String} (h : Derives x text) :
    ∀ n : ℤ, scan (.outside, n) text = (.outside, n) := by
  have hblank {w : String} (hw : IsBlank w) (n : ℤ) : scan (.outside, n) w = (.outside, n) :=
    scan_neutral (isNeutral_of_isBlank hw) n
  have hcomma (n : ℤ) : scan (.outside, n) "," = (.outside, n) := rfl
  have hcolon (n : ℤ) : scan (.outside, n) ":" = (.outside, n) := rfl
  have hopen (n : ℤ) : scan (.outside, n) "[" = (.outside, n + 1) := rfl
  have hclose (n : ℤ) : scan (.outside, n + 1) "]" = (.outside, n) := by
    refine Prod.ext rfl ?_
    exact Int.add_sub_cancel n 1
  have hopen' (n : ℤ) : scan (.outside, n) "\x7b" = (.outside, n + 1) := rfl
  have hclose' (n : ℤ) : scan (.outside, n + 1) "\x7d" = (.outside, n) := by
    refine Prod.ext rfl ?_
    exact Int.add_sub_cancel n 1
  induction h with
  | null => exact fun n => rfl
  | true => exact fun n => rfl
  | false => exact fun n => rfl
  | num hnum => exact scan_neutral (isNeutral_of_isNumber hnum)
  | str hquotes => exact scan_quotes hquotes
  | emptyArr hw => exact fun n => by rw [scan_append, scan_append, hopen, hblank hw, hclose]
  | arr _ ih => exact fun n => by rw [scan_append, scan_append, hopen, ih, hclose]
  | emptyObj hw => exact fun n => by rw [scan_append, scan_append, hopen', hblank hw, hclose']
  | obj _ ih => exact fun n => by rw [scan_append, scan_append, hopen', ih, hclose']
  | padded hw _ hw' ih => exact fun n => by rw [scan_append, scan_append, hblank hw, ih, hblank hw']
  | item _ ih => exact ih
  | items _ _ ih ih' => exact fun n => by rw [scan_append, scan_append, ih, hcomma, ih']
  | field hw hq hw' _ ih =>
    exact fun n => by simp only [scan_append, hblank hw, scan_quotes hq, hblank hw', hcolon, ih]
  | fields hw hq hw' _ _ ih ih' =>
    exact fun n => by
      simp only [scan_append, hblank hw, scan_quotes hq, hblank hw', hcolon, ih, hcomma, ih']

end Json

end Funtrace
