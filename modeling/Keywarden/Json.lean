import Mathlib.Tactic.Common
import Keywarden.Text

/-!
# JSON texts

Values, the texts that Go's `encoding/json` writes for them, compact or indented, and its
reader. A text that was written reads back as the value, and, unless that is a number, no
text that was cut off anywhere reads as anything.
-/
namespace Json

/-- A number is kept as it is written. -/
inductive Value where
  | null
  | bool (b : Bool)
  | num (literal : List Char)
  | str (text : List Char)
  | arr (items : List Value)
  | obj (members : List (List Char × Value))

/-! ## Strings -/

/-- Four hexadecimal digits. -/
def hex4 (n : Nat) : List Char :=
  [Nat.digitChar (n / 4096 % 16), Nat.digitChar (n / 256 % 16), Nat.digitChar (n / 16 % 16),
    Nat.digitChar (n % 16)]

/-- The character after a backslash that stands for the character. -/
def shortEscapes : List (Char × Char) :=
  [('"', '"'), ('\\', '\\'), (Char.ofNat 8, 'b'), (Char.ofNat 12, 'f'), ('\n', 'n'), ('\r', 'r'),
    ('\t', 't')]

/-- A character that is written by its number. -/
def numbered (c : Char) : Bool :=
  c.toNat < 32 || c ∈ ['<', '>', '&'] || c.toNat = 0x2028 || c.toNat = 0x2029

def escape (c : Char) : List Char :=
  match shortEscapes.lookup c with
  | some e => ['\\', e]
  | none => if numbered c then '\\' :: 'u' :: hex4 c.toNat else [c]

def quote (s : List Char) : List Char := '"' :: s.flatMap escape ++ ['"']

/-- A string up to its quotation mark, with its escapes. -/
def rawString : List Char → Option (List Char × List Char)
  | [] => none
  | c :: rest =>
    if c = '"' then some ([], rest)
    else if c = '\\' then
      match rest with
      | [] => none
      | e :: rest => (rawString rest).map fun (raw, r) => (c :: e :: raw, r)
    else if c.toNat < 32 then none
    else (rawString rest).map fun (raw, r) => (c :: raw, r)

def hexValue (c : Char) : Option Nat :=
  if '0' ≤ c ∧ c ≤ '9' then some (c.toNat - 48)
  else if 'a' ≤ c ∧ c ≤ 'f' then some (c.toNat - 87)
  else if 'A' ≤ c ∧ c ≤ 'F' then some (c.toNat - 55)
  else none

def hexNumber (a b c d : Char) : Option Nat :=
  match hexValue a, hexValue b, hexValue c, hexValue d with
  | some a, some b, some c, some d => some (4096 * a + 256 * b + 16 * c + d)
  | _, _, _, _ => none

/-- `/` may be escaped too. -/
def shortEscape (e : Char) : Option Char :=
  if e = '/' then some '/' else (shortEscapes.find? fun p => p.2 = e).map Prod.fst

def isHigh (n : Nat) : Bool := 0xD800 ≤ n && n < 0xDC00
def isLow (n : Nat) : Bool := 0xDC00 ≤ n && n < 0xE000
def replacement : Char := Char.ofNat 0xFFFD

def codeUnit (n : Nat) : Char := if isLow n then replacement else Char.ofNat n

/-- The characters of a string, those that were written by their number as numbers. -/
def unescape : List Char → Option (List (Char ⊕ Nat))
  | [] => some []
  | c :: rest =>
    if c ≠ '\\' then (unescape rest).map (.inl c :: ·)
    else
      match rest with
      | [] => none
      | 'u' :: a :: b :: c :: d :: rest =>
        match hexNumber a b c d with
        | none => none
        | some n => (unescape rest).map (.inr n :: ·)
      | e :: rest =>
        match shortEscape e with
        | none => none
        | some c => (unescape rest).map (.inl c :: ·)

/-- Two halves of a surrogate pair are one character; the first half waits for the second. -/
def joined : Option Nat → List (Char ⊕ Nat) → List Char
  | high, [] => (high.map fun _ => replacement).toList
  | high, .inl c :: units => (high.map fun _ => replacement).toList ++ c :: joined none units
  | none, .inr n :: units =>
    if isHigh n then joined (some n) units else codeUnit n :: joined none units
  | some high, .inr n :: units =>
    if isLow n then Char.ofNat (0x10000 + 0x400 * (high - 0xD800) + (n - 0xDC00)) :: joined none units
    else replacement :: if isHigh n then joined (some n) units else codeUnit n :: joined none units

/-- What follows the first quotation mark. -/
def readString (s : List Char) : Option (List Char × List Char) :=
  match rawString s with
  | none => none
  | some (raw, rest) => (unescape raw).map fun units => (joined none units, rest)

/-! ## Values -/

def isSpace (c : Char) : Bool := c ∈ [' ', '\t', '\n', '\r']

def skip (s : List Char) : List Char := s.dropWhile isSpace

def numeralChar (c : Char) : Bool := c.isDigit || c ∈ ['-', '+', '.', 'e', 'E']

def isInteger (s : List Char) : Bool := s = ['0'] || (s ≠ [] && s.all Char.isDigit && s.head? ≠ some '0')

/-- An exponent may follow. -/
def isExponent : List Char → Bool
  | [] => true
  | c :: s =>
    let digits :=
      match s with
      | '+' :: s | '-' :: s => s
      | _ => s
    (c = 'e' || c = 'E') && digits ≠ [] && digits.all Char.isDigit

def isFraction : List Char → Bool
  | '.' :: s => s.takeWhile Char.isDigit ≠ [] && isExponent (s.dropWhile Char.isDigit)
  | s => isExponent s

def isNumeral (s : List Char) : Bool :=
  let s :=
    match s with
    | '-' :: s => s
    | _ => s
  isInteger (s.takeWhile Char.isDigit) && isFraction (s.dropWhile Char.isDigit)

/-- A number goes as far as its characters do. -/
def readNumber (s : List Char) : Option (Value × List Char) :=
  let literal := s.takeWhile numeralChar
  if isNumeral literal then some (.num literal, s.dropWhile numeralChar) else none

def readKeyword (keyword : List Char) (v : Value) (s : List Char) : Option (Value × List Char) :=
  if keyword.isPrefixOf s then some (v, s.drop keyword.length) else none

mutual

/-- A value at the front of a text, and the rest. -/
def readValue : Nat → List Char → Option (Value × List Char)
  | 0, _ => none
  | n + 1, s =>
    match skip s with
    | [] => none
    | c :: rest =>
      if c = '"' then (readString rest).map fun (text, r) => (.str text, r)
      else if c = '[' then
        match skip rest with
        | ']' :: r => some (.arr [], r)
        | r => (readItems n r).map fun (items, r) => (.arr items, r)
      else if c = '{' then
        match skip rest with
        | '}' :: r => some (.obj [], r)
        | r => (readMembers n r).map fun (members, r) => (.obj members, r)
      else if c = 'n' then readKeyword "ull".toList .null rest
      else if c = 't' then readKeyword "rue".toList (.bool true) rest
      else if c = 'f' then readKeyword "alse".toList (.bool false) rest
      else readNumber (c :: rest)

/-- The items of an array that is not empty. -/
def readItems : Nat → List Char → Option (List Value × List Char)
  | 0, _ => none
  | n + 1, s =>
    match readValue n s with
    | none => none
    | some (v, r) =>
      match skip r with
      | ',' :: r => (readItems n r).map fun (items, r) => (v :: items, r)
      | ']' :: r => some ([v], r)
      | _ => none

def readMembers : Nat → List Char → Option (List (List Char × Value) × List Char)
  | 0, _ => none
  | n + 1, s =>
    match skip s with
    | '"' :: r =>
      match readString r with
      | none => none
      | some (key, r) =>
        match skip r with
        | ':' :: r =>
          match readValue n r with
          | none => none
          | some (v, r) =>
            match skip r with
            | ',' :: r => (readMembers n r).map fun (members, r) => ((key, v) :: members, r)
            | '}' :: r => some ([(key, v)], r)
            | _ => none
        | _ => none
    | _ => none

end

/-- A whole text. -/
def parse (s : List Char) : Option Value :=
  match readValue (s.length + 1) s with
  | some (v, rest) => if skip rest = [] then some v else none
  | none => none

/-! ## Writing -/

/-- What is written before a member at a depth, and after its colon. -/
structure Style where
  gap : Nat → List Char
  colon : List Char
  gap_space : ∀ n, ∀ c ∈ gap n, isSpace c = true
  colon_space : ∀ c ∈ colon, isSpace c = true

/-- `json.Marshal`. -/
def compact : Style where
  gap _ := []
  colon := []
  gap_space _ _ h := by cases h
  colon_space _ h := by cases h

/-- `json.MarshalIndent(v, "", "  ")`. -/
def indented : Style where
  gap n := '\n' :: List.replicate (2 * n) ' '
  colon := [' ']
  gap_space n c h := by
    obtain rfl | h := List.mem_cons.mp h
    · rfl
    · rw [List.eq_of_mem_replicate h]
      rfl
  colon_space c h := by
    rw [List.mem_singleton.mp h]
    rfl

mutual

def write (σ : Style) (depth : Nat) : Value → List Char
  | .null => "null".toList
  | .bool b => if b then "true".toList else "false".toList
  | .num literal => literal
  | .str text => quote text
  | .arr [] => "[]".toList
  | .arr (v :: items) => '[' :: σ.gap (depth + 1) ++ write σ (depth + 1) v ++ writeItems σ depth items
  | .obj [] => "{}".toList
  | .obj ((key, v) :: members) =>
    '{' :: σ.gap (depth + 1) ++ quote key ++ ':' :: σ.colon ++ write σ (depth + 1) v ++
      writeMembers σ depth members

def writeItems (σ : Style) (depth : Nat) : List Value → List Char
  | [] => σ.gap depth ++ [']']
  | v :: items => ',' :: σ.gap (depth + 1) ++ write σ (depth + 1) v ++ writeItems σ depth items

def writeMembers (σ : Style) (depth : Nat) : List (List Char × Value) → List Char
  | [] => σ.gap depth ++ ['}']
  | (key, v) :: members =>
    ',' :: σ.gap (depth + 1) ++ quote key ++ ':' :: σ.colon ++ write σ (depth + 1) v ++
      writeMembers σ depth members

end

mutual

/-- The numbers in it are numerals. -/
def Valid : Value → Prop
  | .num literal => isNumeral literal = true ∧ ∀ c ∈ literal, numeralChar c = true
  | .arr items => ValidItems items
  | .obj members => ValidMembers members
  | _ => True

def ValidItems : List Value → Prop
  | [] => True
  | v :: items => Valid v ∧ ValidItems items

def ValidMembers : List (List Char × Value) → Prop
  | [] => True
  | (_, v) :: members => Valid v ∧ ValidMembers members

end

/-! ## Strings read back -/

theorem hexValue_digitChar : ∀ d < 16, hexValue (Nat.digitChar d) = some d := by decide

theorem hexNumber_hex4 {n : Nat} (h : n < 65536) :
    hexNumber (Nat.digitChar (n / 4096 % 16)) (Nat.digitChar (n / 256 % 16))
      (Nat.digitChar (n / 16 % 16)) (Nat.digitChar (n % 16)) = some n := by
  have hdigit : ∀ k, hexValue (Nat.digitChar (k % 16)) = some (k % 16) := fun k =>
    hexValue_digitChar _ (Nat.mod_lt _ (by decide))
  unfold hexNumber
  simp only [hdigit, Option.some.injEq]
  omega

/-- The digits are characters like others. -/
theorem plain_digitChar : ∀ d < 16, Nat.digitChar d ≠ '"' ∧ Nat.digitChar d ≠ '\\' ∧
    ¬ (Nat.digitChar d).toNat < 32 := by decide

theorem shortEscape_of_mem : ∀ p ∈ shortEscapes, p.2 ≠ 'u' ∧ shortEscape p.2 = some p.1 := by
  decide

/-- A character is written as it is, after a backslash, or by its number. -/
theorem escape_cases (c : Char) :
    (escape c = [c] ∧ c ≠ '"' ∧ c ≠ '\\' ∧ ¬ c.toNat < 32) ∨
    (∃ e, escape c = ['\\', e] ∧ e ≠ 'u' ∧ shortEscape e = some c) ∨
    (escape c = '\\' :: 'u' :: hex4 c.toNat ∧ c.toNat < 0xD800) := by
  unfold escape
  cases h : shortEscapes.lookup c with
  | some e =>
    obtain ⟨l, r, hl, -⟩ := List.lookup_eq_some_iff.mp h
    have hmem : (c, e) ∈ shortEscapes := by
      rw [hl]
      exact List.mem_append_right l List.mem_cons_self
    obtain ⟨hu, hshort⟩ := shortEscape_of_mem _ hmem
    exact .inr (.inl ⟨e, rfl, hu, hshort⟩)
  | none =>
    have hne := List.lookup_eq_none_iff.mp h
    by_cases hn : numbered c = true
    · refine .inr (.inr ⟨by simp [hn], ?_⟩)
      simp only [numbered, Bool.or_eq_true, decide_eq_true_eq, List.mem_cons, List.not_mem_nil,
        or_false] at hn
      obtain ((hn | rfl | rfl | rfl) | hn) | hn := hn
      · omega
      · decide
      · decide
      · decide
      · omega
      · omega
    · refine .inl ⟨by simp [hn], ?_, ?_, ?_⟩
      · rintro rfl
        exact absurd (hne ('"', '"') (by decide)) (by decide)
      · rintro rfl
        exact absurd (hne ('\\', '\\') (by decide)) (by decide)
      · intro hlt
        simp [numbered, hlt] at hn

theorem rawString_plain {c : Char} (hq : c ≠ '"') (hb : c ≠ '\\') (hc : ¬ c.toNat < 32)
    (t : List Char) : rawString (c :: t) = (rawString t).map fun (raw, r) => (c :: raw, r) := by
  rw [rawString.eq_def]
  simp [hq, hb, hc]

theorem rawString_escaped (e : Char) (t : List Char) : rawString ('\\' :: e :: t) =
    (rawString t).map fun (raw, r) => ('\\' :: e :: raw, r) := by
  rw [rawString]
  simp

theorem rawString_digit (k : Nat) (t : List Char) : rawString (Nat.digitChar (k % 16) :: t) =
    (rawString t).map fun (raw, r) => (Nat.digitChar (k % 16) :: raw, r) := by
  obtain ⟨hq, hb, hc⟩ := plain_digitChar _ (Nat.mod_lt k (by decide))
  exact rawString_plain hq hb hc t

theorem rawString_escape (c : Char) (t : List Char) :
    rawString (escape c ++ t) = (rawString t).map fun (raw, r) => (escape c ++ raw, r) := by
  obtain ⟨h, hq, hb, hc⟩ | ⟨e, h, -⟩ | ⟨h, -⟩ := escape_cases c
  · rw [h]
    exact rawString_plain hq hb hc t
  · rw [h]
    exact rawString_escaped e t
  · rw [h]
    simp only [hex4, List.cons_append, List.nil_append, rawString_escaped, rawString_digit,
      Option.map_map]
    rfl

theorem rawString_quoted (s rest : List Char) :
    rawString (s.flatMap escape ++ '"' :: rest) = some (s.flatMap escape, rest) := by
  induction s with
  | nil =>
    rw [List.flatMap_nil, List.nil_append, rawString.eq_def]
    simp
  | cons c s ih =>
    rw [List.flatMap_cons, List.append_assoc, rawString_escape, ih]
    rfl

theorem unescape_short {c e : Char} (hu : e ≠ 'u') (h : shortEscape e = some c) (t : List Char) :
    unescape ('\\' :: e :: t) = (unescape t).map (.inl c :: ·) := by
  rw [unescape.eq_def]
  simp only [ne_eq, not_true_eq_false, if_false]
  split
  · next heq => cases heq
  · next heq =>
    cases heq
    exact absurd rfl hu
  · next heq =>
    cases heq
    rw [h]

theorem unescape_hex4 {n : Nat} (h : n < 65536) (t : List Char) :
    unescape ('\\' :: 'u' :: hex4 n ++ t) = (unescape t).map (.inr n :: ·) := by
  rw [List.cons_append, List.cons_append, unescape.eq_def]
  simp only [ne_eq, not_true_eq_false, if_false, hex4, List.cons_append, List.nil_append,
    hexNumber_hex4 h]

/-- What is read for an escaped character stands for the character. -/
theorem unescape_escape (c : Char) (t : List Char) :
    ∃ u, unescape (escape c ++ t) = (unescape t).map (u :: ·) ∧
      ∀ units, joined none (u :: units) = c :: joined none units := by
  obtain ⟨h, hq, hb, hc⟩ | ⟨e, h, hu, hshort⟩ | ⟨h, hlt⟩ := escape_cases c
  · refine ⟨.inl c, ?_, fun _ => rfl⟩
    rw [h, List.singleton_append, unescape.eq_def]
    simp [hb]
  · refine ⟨.inl c, ?_, fun _ => rfl⟩
    rw [h]
    exact unescape_short hu hshort t
  · refine ⟨.inr c.toNat, ?_, fun units => ?_⟩
    · rw [h]
      exact unescape_hex4 (by omega) t
    · have hhigh : isHigh c.toNat = false := by
        simp only [isHigh, Bool.and_eq_false_iff, decide_eq_false_iff_not]
        omega
      have hlow : isLow c.toNat = false := by
        simp only [isLow, Bool.and_eq_false_iff, decide_eq_false_iff_not]
        omega
      rw [joined, hhigh]
      simp [codeUnit, hlow]

theorem unescape_quoted (s : List Char) :
    ∃ units, unescape (s.flatMap escape) = some units ∧ joined none units = s := by
  induction s with
  | nil => exact ⟨[], rfl, rfl⟩
  | cons c s ih =>
    obtain ⟨units, hunits, hjoined⟩ := ih
    obtain ⟨u, hu, hcons⟩ := unescape_escape c (s.flatMap escape)
    refine ⟨u :: units, ?_, ?_⟩
    · rw [List.flatMap_cons, hu, hunits]
      rfl
    · rw [hcons, hjoined]

theorem readString_quote (s rest : List Char) :
    readString (s.flatMap escape ++ '"' :: rest) = some (s, rest) := by
  obtain ⟨units, hunits, hjoined⟩ := unescape_quoted s
  simp only [readString, rawString_quoted, hunits, Option.map_some, hjoined]

/-! ## Values read back -/

/-- The text does not go on as a number would. -/
def Ends (s : List Char) : Prop := ∀ c t, s = c :: t → numeralChar c = false

theorem not_numeralChar_of_space {c : Char} (h : isSpace c = true) : numeralChar c = false := by
  simp only [isSpace, List.mem_cons, List.not_mem_nil, or_false, decide_eq_true_eq] at h
  obtain rfl | rfl | rfl | rfl := h <;> decide

theorem skip_append {g : List Char} (hg : ∀ c ∈ g, isSpace c = true) (s : List Char) :
    skip (g ++ s) = skip s := List.dropWhile_append_of_pos hg

theorem skip_cons {c : Char} (h : isSpace c = false) (s : List Char) : skip (c :: s) = c :: s := by
  simp [skip, h]

theorem skip_skip (s : List Char) : skip (skip s) = skip s := List.dropWhile_idempotent _ s

theorem readValue_skip (n : Nat) (s : List Char) : readValue n (skip s) = readValue n s := by
  cases n with
  | zero => rfl
  | succ n => rw [readValue, readValue, skip_skip]

theorem readItems_skip (n : Nat) (s : List Char) : readItems n (skip s) = readItems n s := by
  cases n with
  | zero => rfl
  | succ n => rw [readItems, readItems, readValue_skip]

theorem readMembers_skip (n : Nat) (s : List Char) : readMembers n (skip s) = readMembers n s := by
  cases n with
  | zero => rfl
  | succ n => rw [readMembers, readMembers, skip_skip]

theorem readNumber_append {l rest : List Char} (hnum : isNumeral l = true)
    (hall : ∀ c ∈ l, numeralChar c = true) (hrest : Ends rest) :
    readNumber (l ++ rest) = some (.num l, rest) := by
  have hstop : rest.takeWhile numeralChar = [] ∧ rest.dropWhile numeralChar = rest := by
    cases rest with
    | nil => exact ⟨rfl, rfl⟩
    | cons c t => simp [hrest c t rfl]
  unfold readNumber
  rw [List.takeWhile_append_of_pos hall, List.dropWhile_append_of_pos hall, hstop.1, hstop.2,
    List.append_nil]
  simp [hnum]

/-- A number starts with a digit or its sign. -/
theorem head_numeral {l : List Char} (h : isNumeral l = true) :
    ∃ c t, l = c :: t ∧ (c.isDigit = true ∨ c = '-') := by
  cases l with
  | nil => exact absurd h (by decide)
  | cons c t =>
    refine ⟨c, t, rfl, ?_⟩
    by_cases hc : c = '-'
    · exact .inr hc
    · left
      by_contra hd
      have hint : (c :: t).takeWhile Char.isDigit = [] := by simp [hd]
      unfold isNumeral at h
      split at h
      · next heq =>
        cases heq
        exact hc rfl
      · simp only [hint] at h
        simp [isInteger] at h

theorem head_write (σ : Style) (d : Nat) {v : Value} (hv : Valid v) :
    ∃ c t, write σ d v = c :: t ∧ isSpace c = false ∧ c ≠ ']' := by
  cases v with
  | null => exact ⟨'n', _, rfl, by decide, by decide⟩
  | bool b =>
    cases b with
    | false => exact ⟨'f', _, rfl, by decide, by decide⟩
    | true => exact ⟨'t', _, rfl, by decide, by decide⟩
  | num l =>
    obtain ⟨c, t, rfl, hc⟩ := head_numeral hv.1
    refine ⟨c, t, rfl, ?_, ?_⟩
    · by_contra hs
      rw [Bool.not_eq_false] at hs
      have hnum := hv.2 c List.mem_cons_self
      rw [not_numeralChar_of_space hs] at hnum
      cases hnum
    · rintro rfl
      exact absurd (hv.2 _ List.mem_cons_self) (by decide)
  | str text => exact ⟨'"', _, rfl, by decide, by decide⟩
  | arr items =>
    cases items with
    | nil => exact ⟨'[', _, rfl, by decide, by decide⟩
    | cons v items => exact ⟨'[', _, by rw [write]; rfl, by decide, by decide⟩
  | obj members =>
    cases members with
    | nil => exact ⟨'{', _, rfl, by decide, by decide⟩
    | cons m members =>
      obtain ⟨k, v⟩ := m
      exact ⟨'{', _, by rw [write]; rfl, by decide, by decide⟩

/-- What follows a member: the comma before the next one or the closing bracket. -/
theorem ends_gap {g s : List Char} (hg : ∀ c ∈ g, isSpace c = true) (hs : Ends s) : Ends (g ++ s) := by
  cases g with
  | nil => exact hs
  | cons c g =>
    intro c' t h
    cases h
    exact not_numeralChar_of_space (hg c List.mem_cons_self)

theorem ends_cons {c : Char} (h : numeralChar c = false) (s : List Char) : Ends (c :: s) := by
  intro c' t heq
  cases heq
  exact h

theorem ends_writeItems (σ : Style) (d : Nat) (items : List Value) (rest : List Char) :
    Ends (writeItems σ d items ++ rest) := by
  cases items with
  | nil =>
    rw [writeItems, List.append_assoc]
    exact ends_gap (σ.gap_space d) (ends_cons (by decide) _)
  | cons v items =>
    rw [writeItems]
    exact ends_cons (by decide) _

theorem ends_writeMembers (σ : Style) (d : Nat) (members : List (List Char × Value))
    (rest : List Char) : Ends (writeMembers σ d members ++ rest) := by
  cases members with
  | nil =>
    rw [writeMembers, List.append_assoc]
    exact ends_gap (σ.gap_space d) (ends_cons (by decide) _)
  | cons m members =>
    obtain ⟨k, v⟩ := m
    rw [writeMembers]
    exact ends_cons (by decide) _

/-- A number is read where none of the other values starts. -/
theorem readValue_number (n : Nat) {c : Char} (h : c.isDigit = true ∨ c = '-') (s : List Char) :
    readValue (n + 1) (c :: s) = readNumber (c :: s) := by
  have hnum : numeralChar c = true := by
    obtain h | rfl := h
    · simp [numeralChar, h]
    · decide
  have hother : ∀ x : Char, numeralChar x = false → c ≠ x := by
    rintro x hx rfl
    rw [hx] at hnum
    cases hnum
  have hspace : isSpace c = false := by
    by_contra hs
    rw [Bool.not_eq_false] at hs
    rw [not_numeralChar_of_space hs] at hnum
    cases hnum
  rw [readValue, skip_cons hspace]
  simp only [hother '"' (by decide), hother '[' (by decide), hother '{' (by decide),
    hother 'n' (by decide), hother 't' (by decide), hother 'f' (by decide), if_false]

theorem readKeyword_append (keyword : List Char) (v : Value) (rest : List Char) :
    readKeyword keyword v (keyword ++ rest) = some (v, rest) := by
  simp [readKeyword]

theorem readValue_arr (n : Nat) {s : List Char} (h : ∀ r, skip s ≠ ']' :: r) :
    readValue (n + 1) ('[' :: s) = (readItems n s).map fun (items, r) => (.arr items, r) := by
  rw [readValue, skip_cons (by decide)]
  simp only [show ('[' : Char) ≠ '"' by decide, if_false, if_true]
  rw [readItems_skip]

theorem readValue_obj (n : Nat) {s : List Char} (h : ∀ r, skip s ≠ '}' :: r) :
    readValue (n + 1) ('{' :: s) = (readMembers n s).map fun (members, r) => (.obj members, r) := by
  rw [readValue, skip_cons (by decide)]
  simp only [show ('{' : Char) ≠ '"' by decide, show ('{' : Char) ≠ '[' by decide, if_false, if_true]
  rw [readMembers_skip]

theorem readValue_arr_nil (n : Nat) {s r : List Char} (h : skip s = ']' :: r) :
    readValue (n + 1) ('[' :: s) = some (.arr [], r) := by
  rw [readValue, skip_cons (by decide)]
  simp only [show ('[' : Char) ≠ '"' by decide, if_false, if_true, h]

theorem readValue_obj_nil (n : Nat) {s r : List Char} (h : skip s = '}' :: r) :
    readValue (n + 1) ('{' :: s) = some (.obj [], r) := by
  rw [readValue, skip_cons (by decide)]
  simp only [show ('{' : Char) ≠ '"' by decide, show ('{' : Char) ≠ '[' by decide, if_false, if_true, h]

theorem readItems_last {n : Nat} {s r r' : List Char} {v : Value} (hv : readValue n s = some (v, r))
    (hr : skip r = ']' :: r') : readItems (n + 1) s = some ([v], r') := by
  rw [readItems, hv]
  simp only [hr]

theorem readItems_next {n : Nat} {s r r' : List Char} {v : Value} (hv : readValue n s = some (v, r))
    (hr : skip r = ',' :: r') :
    readItems (n + 1) s = (readItems n r').map fun (items, r) => (v :: items, r) := by
  rw [readItems, hv]
  simp only [hr]

/-- A member up to its value. -/
theorem readMembers_key (n : Nat) (key : List Char) {g : List Char} (hg : ∀ c ∈ g, isSpace c = true)
    (s : List Char) : readMembers (n + 1) (quote key ++ ':' :: g ++ s) =
      match readValue n s with
      | none => none
      | some (v, r) =>
        match skip r with
        | ',' :: r => (readMembers n r).map fun (members, r) => ((key, v) :: members, r)
        | '}' :: r => some ([(key, v)], r)
        | _ => none := by
  rw [readMembers, quote]
  simp only [List.cons_append, List.append_assoc, List.nil_append,
    skip_cons (show isSpace '"' = false by decide), readString_quote,
    skip_cons (show isSpace ':' = false by decide)]
  rw [← readValue_skip n (g ++ s), skip_append hg, readValue_skip]

/-- With the fuel `n` what was written is read, and nothing after it. -/
structure Reads (σ : Style) (n : Nat) : Prop where
  value : ∀ (d : Nat) (v : Value) (rest : List Char), Valid v → (write σ d v).length ≤ n → Ends rest →
    readValue n (write σ d v ++ rest) = some (v, rest)
  items : ∀ (d : Nat) (v : Value) (items : List Value) (rest : List Char), Valid v → ValidItems items →
    (write σ (d + 1) v ++ writeItems σ d items).length ≤ n →
    readItems n (write σ (d + 1) v ++ writeItems σ d items ++ rest) = some (v :: items, rest)
  members : ∀ (d : Nat) (key : List Char) (v : Value) (members : List (List Char × Value))
    (rest : List Char), Valid v → ValidMembers members →
    (quote key ++ ':' :: σ.colon ++ write σ (d + 1) v ++ writeMembers σ d members).length ≤ n →
    readMembers n (quote key ++ ':' :: σ.colon ++ write σ (d + 1) v ++ writeMembers σ d members ++ rest) =
      some ((key, v) :: members, rest)

section

variable {σ : Style} {n : Nat}

theorem Reads.value_succ (h : Reads σ n) (d : Nat) (v : Value) (rest : List Char) (hv : Valid v)
    (hn : (write σ d v).length ≤ n + 1) (hrest : Ends rest) :
    readValue (n + 1) (write σ d v ++ rest) = some (v, rest) := by
  cases v with
  | null => exact readKeyword_append "ull".toList .null rest
  | bool b =>
    cases b with
    | false => exact readKeyword_append "alse".toList (.bool false) rest
    | true => exact readKeyword_append "rue".toList (.bool true) rest
  | num l =>
    obtain ⟨c, t, rfl, hc⟩ := head_numeral hv.1
    rw [write, List.cons_append, readValue_number n hc]
    exact readNumber_append hv.1 hv.2 hrest
  | str text =>
    rw [write, quote, readValue]
    simp only [List.cons_append, List.append_assoc, List.nil_append,
      skip_cons (show isSpace '"' = false by decide), if_true, readString_quote, Option.map_some]
  | arr items =>
    cases items with
    | nil => rfl
    | cons v items =>
      obtain ⟨c, t, hhead, hspace, hne⟩ := head_write σ (d + 1) hv.1
      rw [write] at hn ⊢
      simp only [List.length_cons, List.length_append] at hn
      have hitems := h.items d v items rest hv.1 hv.2 (by
        rw [List.length_append]
        omega)
      simp only [List.cons_append, List.append_assoc] at hitems ⊢
      rw [readValue_arr n fun r h => ?_, ← readItems_skip, skip_append (σ.gap_space (d + 1)),
        readItems_skip, hitems]
      · rfl
      · rw [skip_append (σ.gap_space (d + 1)), hhead, List.cons_append, skip_cons hspace] at h
        exact hne (List.cons.inj h).1
  | obj members =>
    cases members with
    | nil => rfl
    | cons m members =>
      obtain ⟨key, v⟩ := m
      rw [write] at hn ⊢
      simp only [List.length_cons, List.length_append] at hn
      have hmembers := h.members d key v members rest hv.1 hv.2 (by
        simp only [List.length_cons, List.length_append]
        omega)
      simp only [List.cons_append, List.append_assoc] at hmembers ⊢
      rw [readValue_obj n fun r h => ?_, ← readMembers_skip, skip_append (σ.gap_space (d + 1)),
        readMembers_skip, hmembers]
      · rfl
      · rw [skip_append (σ.gap_space (d + 1)), quote, List.cons_append, List.cons_append,
          skip_cons (by decide)] at h
        exact absurd (List.cons.inj h).1 (by decide)

theorem Reads.items_succ (h : Reads σ n) (d : Nat) (v : Value) (items : List Value)
    (rest : List Char) (hv : Valid v) (hitems : ValidItems items)
    (hn : (write σ (d + 1) v ++ writeItems σ d items).length ≤ n + 1) :
    readItems (n + 1) (write σ (d + 1) v ++ writeItems σ d items ++ rest) =
      some (v :: items, rest) := by
  have hvalue : readValue n (write σ (d + 1) v ++ (writeItems σ d items ++ rest)) =
      some (v, writeItems σ d items ++ rest) := by
    refine h.value (d + 1) v _ hv ?_ (ends_writeItems σ d items rest)
    have hlast : 0 < (writeItems σ d items).length := by cases items <;> simp [writeItems]
    rw [List.length_append] at hn
    omega
  rw [List.append_assoc]
  cases items with
  | nil =>
    refine readItems_last hvalue ?_
    rw [writeItems, List.append_assoc, skip_append (σ.gap_space d)]
    exact skip_cons (by decide) _
  | cons w items =>
    obtain ⟨c, t, hhead, -, -⟩ := head_write σ (d + 1) hv
    rw [writeItems, hhead] at hn
    rw [writeItems] at hvalue ⊢
    simp only [List.length_cons, List.length_append] at hn
    have hrest := h.items d w items rest hitems.1 hitems.2 (by
      rw [List.length_append]
      omega)
    simp only [List.cons_append, List.append_assoc] at hvalue hrest ⊢
    rw [readItems_next hvalue (skip_cons (by decide) _), ← readItems_skip,
      skip_append (σ.gap_space (d + 1)), readItems_skip, hrest]
    rfl

theorem Reads.members_succ (h : Reads σ n) (d : Nat) (key : List Char) (v : Value)
    (members : List (List Char × Value)) (rest : List Char) (hv : Valid v)
    (hmembers : ValidMembers members) (hn : (quote key ++ ':' :: σ.colon ++ write σ (d + 1) v ++
      writeMembers σ d members).length ≤ n + 1) :
    readMembers (n + 1) (quote key ++ ':' :: σ.colon ++ write σ (d + 1) v ++
      writeMembers σ d members ++ rest) = some ((key, v) :: members, rest) := by
  simp only [List.length_cons, List.length_append] at hn
  have hvalue := h.value (d + 1) v (writeMembers σ d members ++ rest) hv (by omega)
    (ends_writeMembers σ d members rest)
  rw [List.append_assoc, List.append_assoc, readMembers_key n key σ.colon_space, hvalue]
  cases members with
  | nil =>
    simp only [writeMembers, List.append_assoc, skip_append (σ.gap_space d), List.cons_append,
      List.nil_append, skip_cons (show isSpace '}' = false by decide)]
  | cons m members =>
    obtain ⟨k, w⟩ := m
    rw [writeMembers] at hn ⊢
    simp only [List.length_cons, List.length_append] at hn
    have hrest := h.members d k w members rest hmembers.1 hmembers.2 (by
      simp only [List.length_cons, List.length_append]
      omega)
    simp only [List.cons_append, List.append_assoc,
      skip_cons (show isSpace ',' = false by decide)] at hrest ⊢
    rw [← readMembers_skip, skip_append (σ.gap_space (d + 1)), readMembers_skip, hrest]
    rfl

end

theorem reads (σ : Style) (n : Nat) : Reads σ n := by
  induction n with
  | zero =>
    refine ⟨fun d v rest hv hn => ?_, fun d v items rest hv _ hn => ?_,
      fun d key v members rest _ _ hn => ?_⟩
    · obtain ⟨c, t, hhead, -, -⟩ := head_write σ d hv
      rw [hhead] at hn
      cases hn
    · obtain ⟨c, t, hhead, -, -⟩ := head_write σ (d + 1) hv
      rw [hhead] at hn
      cases hn
    · cases hn
  | succ n ih => exact ⟨ih.value_succ, ih.items_succ, ih.members_succ⟩

theorem ends_nil : Ends [] := by
  intro c t h
  cases h

/-- A text that was written reads back as the value. -/
theorem parse_write (σ : Style) {v : Value} (hv : Valid v) : parse (write σ 0 v) = some v := by
  have hread := (reads σ ((write σ 0 v).length + 1)).value 0 v [] hv (Nat.le_succ _) ends_nil
  rw [List.append_nil] at hread
  unfold parse
  rw [hread]
  rfl

/-! ## Integers -/

def number (i : Int) : Value := .num (Text.str i)

theorem head_toDigits (n : Nat) (h : 0 < n) : (Nat.toDigits 10 n).head? ≠ some '0' := by
  induction n using Nat.strongRecOn with
  | ind n ih =>
    by_cases hlt : n < 10
    · rw [Nat.toDigits_of_lt_base hlt]
      simp
      omega
    · rw [Nat.toDigits_of_base_le (by decide) (by omega),
        List.head?_append_of_ne_nil _ Nat.toDigits_ne_nil]
      exact ih (n / 10) (by omega) (by omega)

theorem isInteger_toDigits (n : Nat) : isInteger (Nat.toDigits 10 n) = true := by
  cases n with
  | zero => rfl
  | succ n =>
    have hdigits : (Nat.toDigits 10 (n + 1)).all Char.isDigit = true :=
      List.all_eq_true.mpr fun c hc => Nat.isDigit_of_mem_toDigits (by decide) (by decide) hc
    simp [isInteger, hdigits, Nat.toDigits_ne_nil, head_toDigits (n + 1) n.succ_pos]

theorem valid_number (i : Int) : Valid (number i) := by
  have hdigit : ∀ n : Nat, ∀ c ∈ Nat.toDigits 10 n, c.isDigit = true := fun n c hc =>
    Nat.isDigit_of_mem_toDigits (by decide) (by decide) hc
  have hwhole : ∀ n : Nat, isInteger ((Nat.toDigits 10 n).takeWhile Char.isDigit) = true ∧
      isFraction ((Nat.toDigits 10 n).dropWhile Char.isDigit) = true := by
    intro n
    have htake : (Nat.toDigits 10 n).takeWhile Char.isDigit = Nat.toDigits 10 n :=
      List.takeWhile_eq_self_iff.mpr (hdigit n)
    have hdrop : (Nat.toDigits 10 n).dropWhile Char.isDigit = [] :=
      List.dropWhile_eq_nil_iff.mpr (hdigit n)
    rw [htake, hdrop]
    exact ⟨isInteger_toDigits n, rfl⟩
  refine ⟨?_, fun c hc => ?_⟩
  · cases i with
    | ofNat n =>
      have hne : ∀ t, Nat.toDigits 10 n ≠ '-' :: t := by
        intro t h
        exact absurd (hdigit n '-' (h ▸ List.mem_cons_self)) (by decide)
      unfold isNumeral
      rw [Int.ofNat_eq_natCast, Text.str_natCast]
      split
      · next h => exact absurd h (hne _)
      · simp [hwhole n]
    | negSucc n =>
      rw [Text.str_negSucc]
      simp [isNumeral, hwhole (n + 1)]
  · obtain h | rfl := Text.mem_str hc
    · simp [numeralChar, h]
    · decide

/-! ## Texts that are cut off -/

/-- Only a number may go on where it ends. -/
def Closed (v : Value) (rest : List Char) : Prop := rest ≠ [] ∨ ∀ l, v ≠ .num l

theorem while_append {p : Char → Bool} {s : List Char} (h : s.dropWhile p ≠ []) (q : List Char) :
    (s ++ q).takeWhile p = s.takeWhile p ∧ (s ++ q).dropWhile p = s.dropWhile p ++ q := by
  induction s with
  | nil => exact absurd rfl h
  | cons c s ih =>
    by_cases hc : p c = true
    · simp only [List.dropWhile_cons, hc, if_true] at h
      simp [hc, ih h]
    · simp [hc]

theorem skip_append_of_ne {s : List Char} (h : skip s ≠ []) (q : List Char) :
    skip (s ++ q) = skip s ++ q := (while_append h q).2

theorem skip_append_cons {s t : List Char} {c : Char} (h : skip s = c :: t) (q : List Char) :
    skip (s ++ q) = c :: (t ++ q) := by
  rw [skip_append_of_ne (by simp [h]), h, List.cons_append]

theorem ne_nil_of_skip {s t : List Char} {c : Char} (h : skip s = c :: t) : s ≠ [] := by
  rintro rfl
  cases h

theorem readItems_nil (n : Nat) : readItems n [] = none := by
  cases n with
  | zero => rfl
  | succ n =>
    cases n with
    | zero => rfl
    | succ n => rfl

theorem readMembers_nil (n : Nat) : readMembers n [] = none := by cases n <;> rfl

theorem rawString_append {s raw r : List Char} (h : rawString s = some (raw, r)) (q : List Char) :
    rawString (s ++ q) = some (raw, r ++ q) := by
  fun_induction rawString s generalizing raw r with
  | case1 => cases h
  | case2 rest =>
    cases h
    rw [List.cons_append, rawString.eq_def]
    simp
  | case3 => cases h
  | case4 hq e rest ih =>
    obtain ⟨⟨raw', r'⟩, hraw, heq⟩ := Option.map_eq_some_iff.mp h
    cases heq
    rw [List.cons_append, List.cons_append, rawString_escaped, ih hraw]
    rfl
  | case5 => cases h
  | case6 c rest hq hb hc ih =>
    obtain ⟨⟨raw', r'⟩, hraw, heq⟩ := Option.map_eq_some_iff.mp h
    cases heq
    rw [List.cons_append, rawString_plain hq hb hc, ih hraw]
    rfl

theorem readString_append {s text r : List Char} (h : readString s = some (text, r)) (q : List Char) :
    readString (s ++ q) = some (text, r ++ q) := by
  unfold readString at h ⊢
  split at h
  · cases h
  · next raw rest heq =>
    rw [rawString_append heq q]
    obtain ⟨units, hunits, hpair⟩ := Option.map_eq_some_iff.mp h
    cases hpair
    simp [hunits]

theorem readNumber_stable {s r : List Char} {v : Value} (h : readNumber s = some (v, r))
    (hr : Closed v r) (q : List Char) : readNumber (s ++ q) = some (v, r ++ q) := by
  unfold readNumber at h ⊢
  simp only at h ⊢
  split at h
  · next hnum =>
    cases h
    have hne : s.dropWhile numeralChar ≠ [] := hr.resolve_right fun h => h _ rfl
    obtain ⟨htake, hdrop⟩ := while_append hne q
    rw [htake, hdrop, if_pos hnum]
  · cases h

theorem readKeyword_stable {keyword s r : List Char} {v w : Value}
    (h : readKeyword keyword v s = some (w, r)) (q : List Char) :
    readKeyword keyword v (s ++ q) = some (w, r ++ q) := by
  unfold readKeyword at h
  split at h
  · next hpre =>
    cases h
    obtain ⟨t, rfl⟩ := List.isPrefixOf_iff_prefix.mp hpre
    rw [List.append_assoc, readKeyword_append, List.drop_left]
  · cases h

/-- What is read with the fuel `n` is read with more of it and from a longer text. -/
structure Stable (n : Nat) : Prop where
  value : ∀ (s : List Char) (v : Value) (r q : List Char) (m : Nat), n ≤ m →
    readValue n s = some (v, r) → Closed v r → readValue m (s ++ q) = some (v, r ++ q)
  items : ∀ (s : List Char) (items : List Value) (r q : List Char) (m : Nat), n ≤ m →
    readItems n s = some (items, r) → readItems m (s ++ q) = some (items, r ++ q)
  members : ∀ (s : List Char) (members : List (List Char × Value)) (r q : List Char) (m : Nat), n ≤ m →
    readMembers n s = some (members, r) → readMembers m (s ++ q) = some (members, r ++ q)

section

variable {n : Nat}

theorem Stable.array (h : Stable n) {rest r : List Char} {v : Value} {m : Nat} (hm : n ≤ m)
    (hread : readValue (n + 1) ('[' :: rest) = some (v, r)) (q : List Char) :
    readValue (m + 1) ('[' :: (rest ++ q)) = some (v, r ++ q) := by
  by_cases hclose : ∃ t, skip rest = ']' :: t
  · obtain ⟨t, ht⟩ := hclose
    rw [readValue_arr_nil n ht] at hread
    cases hread
    exact readValue_arr_nil m (skip_append_cons ht q)
  · have hopen : ∀ t, skip rest ≠ ']' :: t := fun t ht => hclose ⟨t, ht⟩
    rw [readValue_arr n hopen] at hread
    obtain ⟨⟨items, r'⟩, hitems, heq⟩ := Option.map_eq_some_iff.mp hread
    cases heq
    have hne : skip rest ≠ [] := by
      intro hnil
      rw [← readItems_skip, hnil, readItems_nil] at hitems
      cases hitems
    rw [readValue_arr m fun t ht => ?_, h.items rest items r q m hm hitems]
    · rfl
    · rw [skip_append_of_ne hne] at ht
      cases hs : skip rest with
      | nil => exact hne hs
      | cons c t' =>
        rw [hs, List.cons_append] at ht
        exact hopen t' (by rw [hs, (List.cons.inj ht).1])

theorem Stable.object (h : Stable n) {rest r : List Char} {v : Value} {m : Nat} (hm : n ≤ m)
    (hread : readValue (n + 1) ('{' :: rest) = some (v, r)) (q : List Char) :
    readValue (m + 1) ('{' :: (rest ++ q)) = some (v, r ++ q) := by
  by_cases hclose : ∃ t, skip rest = '}' :: t
  · obtain ⟨t, ht⟩ := hclose
    rw [readValue_obj_nil n ht] at hread
    cases hread
    exact readValue_obj_nil m (skip_append_cons ht q)
  · have hopen : ∀ t, skip rest ≠ '}' :: t := fun t ht => hclose ⟨t, ht⟩
    rw [readValue_obj n hopen] at hread
    obtain ⟨⟨members, r'⟩, hmembers, heq⟩ := Option.map_eq_some_iff.mp hread
    cases heq
    have hne : skip rest ≠ [] := by
      intro hnil
      rw [← readMembers_skip, hnil, readMembers_nil] at hmembers
      cases hmembers
    rw [readValue_obj m fun t ht => ?_, h.members rest members r q m hm hmembers]
    · rfl
    · rw [skip_append_of_ne hne] at ht
      cases hs : skip rest with
      | nil => exact hne hs
      | cons c t' =>
        rw [hs, List.cons_append] at ht
        exact hopen t' (by rw [hs, (List.cons.inj ht).1])

theorem Stable.value_succ (h : Stable n) (s : List Char) (v : Value) (r q : List Char) (m : Nat)
    (hm : n ≤ m) (hread : readValue (n + 1) s = some (v, r)) (hclosed : Closed v r) :
    readValue (m + 1) (s ++ q) = some (v, r ++ q) := by
  rw [← readValue_skip] at hread ⊢
  cases hs : skip s with
  | nil =>
    rw [hs] at hread
    cases hread
  | cons c rest =>
    have hskip : skip (c :: rest) = c :: rest := by rw [← hs, skip_skip]
    have hskip' : skip (c :: (rest ++ q)) = c :: (rest ++ q) := by
      have hne : skip (c :: rest) ≠ [] := by simp [hskip]
      rw [← List.cons_append, skip_append_of_ne hne, hskip]
    rw [hs] at hread
    rw [skip_append_cons hs]
    by_cases harr : c = '['
    · subst harr
      exact h.array hm hread q
    · by_cases hobj : c = '{'
      · subst hobj
        exact h.object hm hread q
      · rw [readValue, hskip] at hread
        rw [readValue, hskip']
        simp only [harr, hobj, if_false] at hread ⊢
        by_cases hquote : c = '"'
        · rw [if_pos hquote] at hread ⊢
          obtain ⟨⟨text, r'⟩, hstring, heq⟩ := Option.map_eq_some_iff.mp hread
          cases heq
          rw [readString_append hstring q]
          rfl
        · rw [if_neg hquote] at hread ⊢
          by_cases hnull : c = 'n'
          · rw [if_pos hnull] at hread ⊢
            exact readKeyword_stable hread q
          · rw [if_neg hnull] at hread ⊢
            by_cases htrue : c = 't'
            · rw [if_pos htrue] at hread ⊢
              exact readKeyword_stable hread q
            · rw [if_neg htrue] at hread ⊢
              by_cases hfalse : c = 'f'
              · rw [if_pos hfalse] at hread ⊢
                exact readKeyword_stable hread q
              · rw [if_neg hfalse] at hread ⊢
                exact readNumber_stable hread hclosed q

theorem Stable.items_succ (h : Stable n) (s : List Char) (items : List Value) (r q : List Char)
    (m : Nat) (hm : n ≤ m) (hread : readItems (n + 1) s = some (items, r)) :
    readItems (m + 1) (s ++ q) = some (items, r ++ q) := by
  rw [readItems] at hread
  split at hread
  · cases hread
  · next v t hvalue =>
    split at hread
    · next t' hcomma =>
      obtain ⟨⟨items', r'⟩, hitems, heq⟩ := Option.map_eq_some_iff.mp hread
      cases heq
      have hlong := h.value s v t q m hm hvalue (.inl (ne_nil_of_skip hcomma))
      rw [readItems_next hlong (skip_append_cons hcomma q), h.items t' items' _ q m hm hitems]
      rfl
    · next t' hclose =>
      cases hread
      have hlong := h.value s v t q m hm hvalue (.inl (ne_nil_of_skip hclose))
      exact readItems_last hlong (skip_append_cons hclose q)
    · cases hread

/-- The parts of a member that was read. -/
theorem readMembers_cases {s r : List Char} {members : List (List Char × Value)}
    (h : readMembers (n + 1) s = some (members, r)) :
    ∃ t key t₁ t₂ v t₃, skip s = '"' :: t ∧ readString t = some (key, t₁) ∧ skip t₁ = ':' :: t₂ ∧
      readValue n t₂ = some (v, t₃) ∧
      ((∃ t₄ more, skip t₃ = ',' :: t₄ ∧ readMembers n t₄ = some (more, r) ∧
          members = (key, v) :: more) ∨
        (skip t₃ = '}' :: r ∧ members = [(key, v)])) := by
  rw [readMembers] at h
  split at h
  · next t hquote =>
    split at h
    · cases h
    · next key t₁ hstring =>
      split at h
      · next t₂ hcolon =>
        split at h
        · cases h
        · next v t₃ hvalue =>
          refine ⟨t, key, t₁, t₂, v, t₃, hquote, hstring, hcolon, hvalue, ?_⟩
          split at h
          · next t₄ hcomma =>
            obtain ⟨⟨more, r'⟩, hmore, heq⟩ := Option.map_eq_some_iff.mp h
            cases heq
            exact .inl ⟨t₄, more, hcomma, hmore, rfl⟩
          · next t₄ hclose =>
            cases h
            exact .inr ⟨hclose, rfl⟩
          · cases h
      · cases h
  · cases h

theorem Stable.members_succ (h : Stable n) (s : List Char) (members : List (List Char × Value))
    (r q : List Char) (m : Nat) (hm : n ≤ m) (hread : readMembers (n + 1) s = some (members, r)) :
    readMembers (m + 1) (s ++ q) = some (members, r ++ q) := by
  obtain ⟨t, key, t₁, t₂, v, t₃, hquote, hstring, hcolon, hvalue, hrest⟩ := readMembers_cases hread
  rw [readMembers, skip_append_cons hquote q]
  simp only [readString_append hstring q, skip_append_cons hcolon q]
  obtain ⟨t₄, more, hcomma, hmore, rfl⟩ | ⟨hclose, rfl⟩ := hrest
  · rw [h.value t₂ v t₃ q m hm hvalue (.inl (ne_nil_of_skip hcomma))]
    simp only [skip_append_cons hcomma q, h.members t₄ more r q m hm hmore]
    rfl
  · rw [h.value t₂ v t₃ q m hm hvalue (.inl (ne_nil_of_skip hclose))]
    simp only [skip_append_cons hclose q]

end

theorem stable (n : Nat) : Stable n := by
  induction n with
  | zero =>
    refine ⟨fun s v r q m _ h => ?_, fun s items r q m _ h => ?_, fun s members r q m _ h => ?_⟩
    · cases h
    · cases h
    · cases h
  | succ n ih =>
    refine ⟨fun s v r q m hm => ?_, fun s items r q m hm => ?_, fun s members r q m hm => ?_⟩
    · obtain ⟨m, rfl⟩ := Nat.exists_eq_add_of_lt hm
      exact ih.value_succ s v r q _ (Nat.le_add_right n m)
    · obtain ⟨m, rfl⟩ := Nat.exists_eq_add_of_lt hm
      exact ih.items_succ s items r q _ (Nat.le_add_right n m)
    · obtain ⟨m, rfl⟩ := Nat.exists_eq_add_of_lt hm
      exact ih.members_succ s members r q _ (Nat.le_add_right n m)

theorem readKeyword_value {keyword s r : List Char} {v w : Value}
    (h : readKeyword keyword v s = some (w, r)) : w = v := by
  unfold readKeyword at h
  split at h
  · cases h
    rfl
  · cases h

/-- What reads as a number starts as one. -/
theorem head_number {n : Nat} {s l r : List Char} (h : readValue n s = some (.num l, r)) :
    ∃ c t, skip s = c :: t ∧ numeralChar c = true := by
  cases n with
  | zero => cases h
  | succ n =>
    rw [readValue] at h
    split at h
    · cases h
    · next c t hs =>
      refine ⟨c, t, hs, ?_⟩
      split at h
      · obtain ⟨_, -, heq⟩ := Option.map_eq_some_iff.mp h
        cases heq
      · split at h
        · split at h
          · cases h
          · obtain ⟨_, -, heq⟩ := Option.map_eq_some_iff.mp h
            cases heq
        · split at h
          · split at h
            · cases h
            · obtain ⟨_, -, heq⟩ := Option.map_eq_some_iff.mp h
              cases heq
          · split at h
            · cases readKeyword_value h
            · split at h
              · cases readKeyword_value h
              · split at h
                · cases readKeyword_value h
                · by_contra hc
                  have hempty : (c :: t).takeWhile numeralChar = [] := by simp [hc]
                  unfold readNumber at h
                  simp only [hempty] at h
                  cases h

theorem head_write_not_number (σ : Style) (d : Nat) {v : Value} (hv : ∀ l, v ≠ .num l) :
    ∃ c t, write σ d v = c :: t ∧ isSpace c = false ∧ numeralChar c = false := by
  cases v with
  | null => exact ⟨'n', _, rfl, by decide, by decide⟩
  | bool b =>
    cases b with
    | false => exact ⟨'f', _, rfl, by decide, by decide⟩
    | true => exact ⟨'t', _, rfl, by decide, by decide⟩
  | num l => exact absurd rfl (hv l)
  | str text => exact ⟨'"', _, rfl, by decide, by decide⟩
  | arr items =>
    cases items with
    | nil => exact ⟨'[', _, rfl, by decide, by decide⟩
    | cons v items => exact ⟨'[', _, by rw [write]; rfl, by decide, by decide⟩
  | obj members =>
    cases members with
    | nil => exact ⟨'{', _, rfl, by decide, by decide⟩
    | cons m members =>
      obtain ⟨k, v⟩ := m
      exact ⟨'{', _, by rw [write]; rfl, by decide, by decide⟩

/-- What was written, but for its end, is no text; only a number may lose digits and stay one. -/
theorem parse_torn (σ : Style) {v : Value} (hv : Valid v) (hnum : ∀ l, v ≠ .num l) {p q : List Char}
    (hcut : write σ 0 v = p ++ q) (hq : q ≠ []) : parse p = none := by
  cases hread : readValue (p.length + 1) p with
  | none =>
    unfold parse
    rw [hread]
  | some x =>
    obtain ⟨w, r⟩ := x
    have hclosed : Closed w r := by
      refine .inr ?_
      rintro l rfl
      obtain ⟨c, t, hwrite, hspace, hc⟩ := head_write_not_number σ 0 hnum
      obtain ⟨c', t', hskip, hc'⟩ := head_number hread
      cases p with
      | nil => cases hskip
      | cons a p =>
        rw [hwrite, List.cons_append] at hcut
        obtain ⟨rfl, -⟩ := List.cons.inj hcut
        rw [skip_cons hspace] at hskip
        obtain ⟨rfl, -⟩ := List.cons.inj hskip
        rw [hc] at hc'
        cases hc'
    have hlong := (stable (p.length + 1)).value p w r q ((p ++ q).length + 1)
      (by rw [List.length_append]; omega) hread hclosed
    have hwhole := (reads σ ((p ++ q).length + 1)).value 0 v [] hv
      (by rw [hcut]; exact Nat.le_succ _) ends_nil
    rw [List.append_nil, hcut, hlong] at hwhole
    injection hwhole with hpair
    exact absurd (List.append_eq_nil_iff.mp (Prod.mk.inj hpair).2).2 hq

theorem parse_take (σ : Style) {v : Value} (hv : Valid v) (hnum : ∀ l, v ≠ .num l) {n : Nat}
    (h : n < (write σ 0 v).length) : parse ((write σ 0 v).take n) = none := by
  have hrest : (write σ 0 v).drop n ≠ [] := by
    rw [Ne, List.drop_eq_nil_iff]
    omega
  exact parse_torn σ hv hnum (List.take_append_drop n _).symm hrest

end Json
