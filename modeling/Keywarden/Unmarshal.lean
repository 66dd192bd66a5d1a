import Keywarden.AuthorizedKeys
import Keywarden.Json

/-!
# Reading JSON into records

What `json.Unmarshal` of Go does with one member of an object that is read into a field
of a record: the names it goes by and the values it takes.
-/
namespace Keywarden.Unmarshal

open Text Json AuthorizedKeys

/-- What a character of a key is compared by: `ſ` and the Kelvin sign are letters here. -/
def foldChar (c : Char) : Char :=
  if c.toNat = 0x17F then 'S' else if c.toNat = 0x212A then 'K' else c.toUpper

/-- A key of an object is the name of the field. -/
def isField (name key : List Char) : Bool := key.map foldChar = name.map foldChar

theorem isField_self (name : List Char) : isField name name = true := decide_eq_true rfl

/-- A value read into an `int`; `null` changes nothing. -/
def decodeInt (i : Int) : Value → Option Int
  | .num literal => atoi literal
  | .null => some i
  | _ => none

def decodeString (s : List Char) : Value → Option (List Char)
  | .str s => some s
  | .null => some s
  | _ => none

def decodeBool (b : Bool) : Value → Option Bool
  | .bool b => some b
  | .null => some b
  | _ => none

/-- A 64-bit `int`. -/
def InRange (i : Int) : Prop := -2 ^ 63 ≤ i ∧ i < 2 ^ 63

theorem digits_toDigits (n : Nat) : (Nat.toDigits 10 n).all Char.isDigit = true :=
  List.all_eq_true.mpr fun _ hc => Nat.isDigit_of_mem_toDigits (by decide) (by decide) hc

theorem atoi_str {i : Int} (h : InRange i) : atoi (str i) = some i := by
  unfold InRange at h
  cases i with
  | ofNat n =>
    have hsign : ∀ t, Nat.toDigits 10 n ≠ '-' :: t ∧ Nat.toDigits 10 n ≠ '+' :: t := by
      refine fun t => ⟨fun ht => ?_, fun ht => ?_⟩
      · have hall := digits_toDigits n
        rw [ht] at hall
        cases hall
      · have hall := digits_toDigits n
        rw [ht] at hall
        cases hall
    rw [Int.ofNat_eq_natCast] at h ⊢
    rw [str_natCast, atoi.eq_def]
    split
    next negative digits heq =>
    split at heq
    · next ht => exact absurd ht (hsign _).1
    · next ht => exact absurd ht (hsign _).2
    · cases heq
      simp only [digits_toDigits, Nat.toDigits_ne_nil, Nat.ofDigitChars_ten_toDigits]
      simpa using h
  | negSucc n =>
    rw [str_negSucc]
    simp only [atoi, digits_toDigits, Nat.toDigits_ne_nil, Nat.ofDigitChars_ten_toDigits, if_true]
    simp only [reduceCtorEq, or_self, if_false]
    rw [show -((n + 1 : Nat) : Int) = Int.negSucc n by omega, if_pos h]

theorem decodeInt_number {i : Int} (h : InRange i) (old : Int) : decodeInt old (number i) = some i :=
  atoi_str h

theorem atoi_range {s : List Char} {i : Int} (h : atoi s = some i) : InRange i := by
  rw [atoi.eq_def] at h
  split at h
  next negative digits _ =>
  by_cases hempty : digits = [] ∨ digits.all Char.isDigit = false
  · rw [if_pos hempty] at h
    cases h
  · rw [if_neg hempty] at h
    simp only at h
    generalize (if negative = true then -(Nat.ofDigitChars 10 digits 0 : Int) else
      (Nat.ofDigitChars 10 digits 0 : Int)) = v at h
    by_cases hrange : -2 ^ 63 ≤ v ∧ v < 2 ^ 63
    · rw [if_pos hrange] at h
      cases h
      exact hrange
    · rw [if_neg hrange] at h
      cases h

theorem decodeInt_range {i j : Int} {v : Value} (hi : InRange i) (h : decodeInt i v = some j) :
    InRange j := by
  unfold decodeInt at h
  split at h
  · exact atoi_range h
  · cases h
    exact hi
  · cases h

/-- What every member keeps, the members together keep. -/
theorem foldlM_invariant {α β : Type} {f : α → β → Option α} {I : α → Prop}
    (hf : ∀ a b a', I a → f a b = some a' → I a') {a a' : α} (ha : I a) {l : List β}
    (h : l.foldlM f a = some a') : I a' := by
  induction l generalizing a with
  | nil =>
    cases h
    exact ha
  | cons b l ih =>
    rw [List.foldlM_cons] at h
    obtain ⟨a₁, hb, hl⟩ := Option.bind_eq_some_iff.mp h
    exact ih (hf a b a₁ ha hb) hl

end Keywarden.Unmarshal
