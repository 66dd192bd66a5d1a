import Keywarden.Text

/-!
# Form fields

The text field of Django's forms, which the erasure forms and the key form of the
profile page are made of: the value is stripped, then validated, and every
validator that fails adds its message.
-/
namespace Keywarden.Forms

open Text

/-- A validation error, under its field or, with none, of the form as a whole. -/
structure FormError where
  field : Option String
  message : String
  deriving DecidableEq, Repr

structure CharField where
  name : String
  required : Bool := true
  minLength : Option Nat := none
  maxLength : Option Nat := none

def requiredError : String := "This field is required."

def lengthError (bound : String) (limit length : Nat) : String :=
  "Ensure this value has at " ++ bound ++ " " ++ toString limit ++
    (if limit = 1 then " character" else " characters") ++ " (it has " ++ toString length ++ ")."

/-- The messages of the validators that refuse the value. -/
def CharField.validate (f : CharField) (value : List Char) : List String :=
  (match f.minLength with
    | some n => if value.length < n then [lengthError "least" n value.length] else []
    | none => []) ++
  (match f.maxLength with
    | some n => if n < value.length then [lengthError "most" n value.length] else []
    | none => []) ++
  if Char.ofNat 0 ∈ value then ["Null characters are not allowed."] else []

def CharField.clean (f : CharField) (text : List Char) : Except (List FormError) (List Char) :=
  let value := strip isSpace text
  if value = [] then if f.required then .error [⟨some f.name, requiredError⟩] else .ok []
  else if f.validate value = [] then .ok value
  else .error ((f.validate value).map fun message => ⟨some f.name, message⟩)

/-- The errors of a field; there are none when it is valid. -/
def errors {α : Type} : Except (List FormError) α → List FormError
  | .error es => es
  | .ok _ => []

/-- What is accepted is the stripped text, within the bounds. -/
theorem clean_ok {f : CharField} {text value : List Char} (h : f.clean text = .ok value) :
    value = strip isSpace text ∧ (f.required = true → value ≠ []) ∧
      (value ≠ [] → f.validate value = []) := by
  unfold CharField.clean at h
  simp only at h
  split at h
  · next hempty =>
    split at h
    · cases h
    · next hreq =>
      cases h
      exact ⟨hempty.symm, fun hr => absurd hr hreq, fun hne => absurd rfl hne⟩
  · next hne =>
    split at h
    · next hval =>
      cases h
      exact ⟨rfl, fun _ => hne, fun _ => hval⟩
    · cases h

/-- Every error names the field it is about. -/
theorem clean_error {f : CharField} {text : List Char} {es : List FormError}
    (h : f.clean text = .error es) : es ≠ [] ∧ ∀ e ∈ es, e.field = some f.name := by
  unfold CharField.clean at h
  simp only at h
  split at h
  · split at h
    · cases h
      simp
    · cases h
  · split at h
    · cases h
    · next hval =>
      cases h
      refine ⟨by simpa using hval, fun e he => ?_⟩
      obtain ⟨message, _, rfl⟩ := List.mem_map.mp he
      rfl

end Keywarden.Forms
