import Keywarden.Text

/-!
# System usernames

`apps/keys/utils.py`: the Unix account name and certificate principal of a user.
A template is filled in, the result is lower-cased, every character outside
`[a-z0-9_-]` becomes `_`, the ends are stripped of `-` and `_`, and what is left
is cut to 32 characters. The cut is the last step, so it can take away the user
id that the default template puts at the end: a name is a user's own exactly
when the text before the cut is shorter than the limit.
-/
namespace Keywarden.Username

open Text

/-- Unicode lower-casing outside ASCII, as far as the sanitizer can see it. Two
characters lower to text with an ASCII letter in it (see `lowerChar`); any other
one lowers to a single character that is not ASCII, whichever it is. -/
structure CaseTable where
  other : Char → Char
  nonAscii : ∀ c, 128 ≤ c.toNat → 128 ≤ (other c).toNat

/-- The table that leaves every other character as it is. -/
def CaseTable.keep : CaseTable := ⟨id, fun _ h => h⟩

/-- U+0130 lowers to two characters, the Kelvin sign U+212A to the letter k. -/
def lowerChar (T : CaseTable) (c : Char) : List Char :=
  if c.toNat < 128 then [c.toLower]
  else if c.toNat = 0x130 then ['i', Char.ofNat 0x307]
  else if c.toNat = 0x212A then ['k']
  else [T.other c]

/-- `str.lower`. -/
def lower (T : CaseTable) (s : List Char) : List Char := s.flatMap (lowerChar T)

def maxUsernameLen : Nat := 32

/-- The characters `_SANITIZE_RE` keeps. -/
def allowed (c : Char) : Bool :=
  (decide ('a' ≤ c) && decide (c ≤ 'z')) || c.isDigit || c = '_' || c = '-'

def isDash (c : Char) : Bool := c = '-' || c = '_'

def sanitizeUsername (T : CaseTable) (raw : List Char) : List Char :=
  let raw := lower T raw
  let raw := raw.map fun c => if allowed c then c else '_'
  let raw := strip isDash raw
  if ['-'].isPrefixOf raw then "kw".toList ++ raw else raw

def usernameField : List Char := "{{username}}".toList
def userIdField : List Char := "{{user_id}}".toList

/-- The template filled in, before sanitizing. -/
def fillTemplate (template username : List Char) (userId : Int) : List Char :=
  replace userIdField (str userId) (replace usernameField username template)

def renderSystemUsername (T : CaseTable) (template username : List Char) (userId : Int) :
    List Char :=
  let raw := fillTemplate template username userId
  let cleaned := sanitizeUsername T raw
  let cleaned := if cleaned.length > maxUsernameLen then cleaned.take maxUsernameLen else cleaned
  if cleaned ≠ [] then cleaned else "kw_".toList ++ str userId

/-- `KEYWARDEN_ACCOUNT_USERNAME_TEMPLATE` when the environment does not set it. -/
def defaultTemplate : List Char := "{{username}}_{{user_id}}".toList

/-- A name an account or a principal can carry: characters of one word, the first
a letter or a digit, so it is neither a list of names nor a command-line flag. -/
structure SingleName (s : List Char) : Prop where
  allowed : ∀ c ∈ s, allowed c = true
  head : ∃ c t, s = c :: t ∧ isDash c = false

theorem SingleName.no_comma {s : List Char} (h : SingleName s) : ',' ∉ s := by
  intro hm
  exact absurd (h.allowed _ hm) (by decide)

theorem SingleName.head_ne_dash {s : List Char} (h : SingleName s) (t : List Char) :
    (s ++ t).head? ≠ some '-' := by
  obtain ⟨c, r, rfl, hc⟩ := h.head
  intro he
  simp only [List.cons_append, List.head?_cons, Option.some.injEq] at he
  subst he
  exact absurd hc (by decide)

theorem SingleName.take {s : List Char} (h : SingleName s) (n : Nat) (hn : 0 < n) :
    SingleName (s.take n) := by
  obtain ⟨c, t, rfl, hc⟩ := h.head
  refine ⟨fun d hd => h.allowed d (List.mem_of_mem_take hd), ?_⟩
  cases n with
  | zero => omega
  | succ n => exact ⟨c, t.take n, rfl, hc⟩

theorem allowed_of_isDigit {c : Char} (h : c.isDigit = true) : allowed c = true := by
  simp [allowed, h]

theorem isDash_of_isDigit {c : Char} (h : c.isDigit = true) : isDash c = false := by
  by_cases h₁ : c = '-'
  · subst h₁; exact absurd h (by decide)
  by_cases h₂ : c = '_'
  · subst h₂; exact absurd h (by decide)
  simp [isDash, h₁, h₂]

theorem replaced_allowed (c : Char) :
    allowed (if allowed c then c else '_') = true := by
  by_cases h : allowed c = true
  · rw [if_pos h]; exact h
  · rw [if_neg h]; decide

/-- Sanitized text starts with a letter or a digit, so the branch that guards
against a leading dash is never taken. -/
theorem sanitizeUsername_eq (T : CaseTable) (raw : List Char) :
    sanitizeUsername T raw =
      strip isDash ((lower T raw).map fun c => if allowed c then c else '_') := by
  unfold sanitizeUsername
  simp only
  rw [if_neg]
  intro h
  obtain ⟨t, ht⟩ := List.isPrefixOf_iff_prefix.mp h
  exact absurd (head_strip ht.symm) (by decide)

theorem sanitizeUsername_single (T : CaseTable) (raw : List Char)
    (h : sanitizeUsername T raw ≠ []) : SingleName (sanitizeUsername T raw) := by
  rw [sanitizeUsername_eq] at h ⊢
  constructor
  · intro c hc
    obtain ⟨d, _, rfl⟩ := List.mem_map.mp (mem_of_mem_strip hc)
    exact replaced_allowed d
  · obtain ⟨c, t, ht⟩ := List.exists_cons_of_ne_nil h
    exact ⟨c, t, ht, head_strip ht⟩

theorem fallback_single (userId : Int) : SingleName ("kw_".toList ++ str userId) := by
  refine ⟨?_, 'k', "w_".toList ++ str userId, rfl, by decide⟩
  intro c hc
  obtain hc | hc := List.mem_append.mp hc
  · simp only [show "kw_".toList = ['k', 'w', '_'] from rfl, List.mem_cons, List.not_mem_nil,
      or_false] at hc
    obtain rfl | rfl | rfl := hc <;> decide
  · obtain hd | rfl := mem_str hc
    · exact allowed_of_isDigit hd
    · decide

/-- Whatever the template, the username and the id, the result is one name. -/
theorem renderSystemUsername_single (T : CaseTable) (template username : List Char)
    (userId : Int) : SingleName (renderSystemUsername T template username userId) := by
  unfold renderSystemUsername
  simp only
  generalize fillTemplate template username userId = raw
  by_cases h : sanitizeUsername T raw = []
  · simpa [h] using fallback_single userId
  · have hs := sanitizeUsername_single T raw h
    by_cases hl : (sanitizeUsername T raw).length > maxUsernameLen
    · have ht := hs.take maxUsernameLen (by decide)
      obtain ⟨c, t, hc, _⟩ := ht.head
      rw [if_pos hl, if_pos (by rw [hc]; simp)]
      exact ht
    · rw [if_neg hl, if_pos h]
      exact hs

end Keywarden.Username
