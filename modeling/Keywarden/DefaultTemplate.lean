import Keywarden.Username

/-!
# Names under the default template

`{{username}}_{{user_id}}` ends every name in the user's id, behind the last
underscore, and the id can be read back from there. The 32-character cut is what
breaks this: it is applied to the end that carries the id.
-/
namespace Keywarden.Username

open Text

/-- Django's `username` column holds up to 150 characters. -/
abbrev DjangoUsername := { s : List Char // s.length ≤ 150 }

/-- The name before the cut. -/
def fullName (T : CaseTable) (username : List Char) (userId : Int) : List Char :=
  sanitizeUsername T (fillTemplate defaultTemplate username userId)

/-- The id field does not overlap a copy of itself behind an underscore. -/
theorem userIdField_straddle (w : List Char) (h : userIdField <+: w ++ '_' :: userIdField) :
    userIdField.length ≤ w.length := by
  by_contra hlt
  have hget : ∀ n, n < userIdField.length →
      userIdField[n]? = (w ++ '_' :: userIdField)[n]? := by
    intro n hn
    obtain ⟨r, hr⟩ := h
    rw [← hr, List.getElem?_append_left hn]
  have hlen : userIdField.length = 11 := rfl
  rw [hlen] at hlt hget
  have h₀ := hget w.length (by omega)
  rw [List.getElem?_append_right (Nat.le_refl _), Nat.sub_self, List.getElem?_cons_zero] at h₀
  have hw : w.length = 6 := by
    have hcases : ∀ n, n < 11 → userIdField[n]? = some '_' → n = 6 := by decide
    exact hcases _ (by omega) h₀
  have h₁ := hget 7 (by omega)
  rw [List.getElem?_append_right (by omega), hw] at h₁
  exact absurd h₁ (by decide)

theorem fillTemplate_default (username : List Char) (userId : Int) :
    fillTemplate defaultTemplate username userId =
      replace userIdField (str userId) username ++ '_' :: str userId := by
  have hu : replace usernameField username defaultTemplate = username ++ '_' :: userIdField := rfl
  have hid : replace userIdField (str userId) ('_' :: userIdField) = '_' :: str userId := by
    have hself : replace userIdField (str userId) userIdField = str userId := replace_self _ _ _
    simp only [replace] at hself ⊢
    rw [replaceFrom, if_neg (by decide), hself]
  rw [fillTemplate, hu, replace_append, hid]
  intro w _ _ hw
  exact userIdField_straddle w hw

theorem lowerChar_of_allowed (T : CaseTable) {c : Char} (h : allowed c = true) :
    lowerChar T c = [c] := by
  have hrange : c.toNat < 128 ∧ ¬ (65 ≤ c.toNat ∧ c.toNat ≤ 90) := by
    simp only [allowed, Bool.or_eq_true, Bool.and_eq_true, decide_eq_true_eq, Char.isDigit,
      Char.le_def, UInt32.le_iff_toNat_le] at h
    obtain ((⟨h₁, h₂⟩ | ⟨h₁, h₂⟩) | rfl) | rfl := h
    · have e₁ : ('a' : Char).val.toNat = 97 := rfl
      have e₂ : ('z' : Char).val.toNat = 122 := rfl
      have e₃ : c.val.toNat = c.toNat := rfl
      omega
    · have e₁ : ('0' : Char).val.toNat = 48 := rfl
      have e₂ : ('9' : Char).val.toNat = 57 := rfl
      have e₃ : c.val.toNat = c.toNat := rfl
      omega
    · decide
    · decide
  have hlow : c.toLower = c := by
    unfold Char.toLower
    split
    · next hu =>
      exfalso
      apply hrange.2
      have e₁ : ('A' : Char).val.toNat = 65 := rfl
      have e₂ : ('Z' : Char).val.toNat = 90 := rfl
      have e₃ : c.val.toNat = c.toNat := rfl
      simp only [ge_iff_le, UInt32.le_iff_toNat_le] at hu
      omega
    · rfl
  rw [lowerChar, if_pos hrange.1, hlow]

/-- Allowed text is a fixed point of lower-casing and of character replacement. -/
theorem lower_of_allowed (T : CaseTable) {s : List Char} (h : ∀ c ∈ s, allowed c = true) :
    lower T s = s := by
  induction s with
  | nil => rfl
  | cons c s ih =>
    have hs := ih fun d hd => h d (List.mem_cons_of_mem _ hd)
    simp only [lower] at hs ⊢
    rw [List.flatMap_cons, hs, lowerChar_of_allowed T (h c (List.mem_cons_self))]
    rfl

theorem map_of_allowed {s : List Char} (h : ∀ c ∈ s, allowed c = true) :
    (s.map fun c => if allowed c then c else '_') = s := by
  conv_rhs => rw [← List.map_id s]
  apply List.map_congr_left
  intro c hc
  simp [h c hc]

theorem idTail_allowed (n : Nat) : ∀ c ∈ '_' :: str (n : Int), allowed c = true := by
  intro c hc
  obtain rfl | hc := List.mem_cons.mp hc
  · decide
  · exact allowed_of_isDigit (isDigit_of_mem_str hc)

theorem idTail_last (n : Nat) :
    ∃ d, ('_' :: str (n : Int)).getLast? = some d ∧ isDash d = false := by
  have hne := str_ne_nil (n : Int)
  refine ⟨(str (n : Int)).getLast hne, ?_, ?_⟩
  · rw [List.getLast?_cons, List.getLast?_eq_some_getLast hne]
    rfl
  · exact isDash_of_isDigit (isDigit_of_mem_str (List.getLast_mem hne))

/-- The id stands alone or behind an underscore at the end of the full name. -/
theorem fullName_eq (T : CaseTable) (username : List Char) (n : Nat) :
    ∃ s, fullName T username n = s ++ '_' :: str (n : Int) ∨ fullName T username n = str (n : Int) := by
  let x := (lower T (replace userIdField (str (n : Int)) username)).map
    fun c => if allowed c then c else '_'
  have hx : (lower T (fillTemplate defaultTemplate username n)).map
      (fun c => if allowed c then c else '_') = x ++ '_' :: str (n : Int) := by
    have happ : lower T (replace userIdField (str (n : Int)) username ++ '_' :: str (n : Int)) =
        lower T (replace userIdField (str (n : Int)) username) ++ lower T ('_' :: str (n : Int)) :=
      List.flatMap_append
    rw [fillTemplate_default, happ, lower_of_allowed T (idTail_allowed n), List.map_append,
      map_of_allowed (idTail_allowed n)]
  obtain ⟨d, hlast, hd⟩ := idTail_last n
  refine ⟨x.dropWhile isDash, ?_⟩
  rw [fullName, sanitizeUsername_eq, hx, strip_append hlast hd]
  by_cases h : x.dropWhile isDash = []
  · right
    obtain ⟨c, t, hc⟩ := List.exists_cons_of_ne_nil (str_ne_nil (n : Int))
    have hcd : isDash c = false :=
      isDash_of_isDigit (isDigit_of_mem_str (by rw [hc]; exact List.mem_cons_self))
    rw [if_pos h, h, List.nil_append, hc, List.dropWhile_cons, if_pos (by decide),
      List.dropWhile_cons, if_neg (by simp [hcd])]
  · left
    rw [if_neg h]

theorem lastPart (s ds : List Char) (h : ∀ c ∈ ds, c ≠ '_') :
    (s ++ '_' :: ds).rtakeWhile (fun c => c != '_') = ds := by
  have hall : ∀ c ∈ ds.reverse, (c != '_') = true := by
    intro c hc
    simpa using h c (List.mem_reverse.mp hc)
  rw [List.rtakeWhile, List.reverse_append, List.reverse_cons, List.append_assoc,
    List.takeWhile_append_of_pos hall]
  simp

/-- The id is what stands behind the last underscore of the full name. -/
theorem fullName_lastPart (T : CaseTable) (username : List Char) (n : Nat) :
    (fullName T username n).rtakeWhile (fun c => c != '_') = str (n : Int) := by
  have hds : ∀ c ∈ str (n : Int), c ≠ '_' := by
    rintro c hc rfl
    exact absurd (isDigit_of_mem_str hc) (by decide)
  obtain ⟨s, h | h⟩ := fullName_eq T username n
  · rw [h, lastPart s _ hds]
  · rw [h, List.rtakeWhile_eq_self_iff]
    intro c hc
    simpa using hds c hc

/-- Before the cut no two users have the same name. -/
theorem fullName_injective (T : CaseTable) {a b : List Char} {m n : Nat}
    (h : fullName T a m = fullName T b n) : m = n := by
  apply str_injective
  rw [← fullName_lastPart T a m, h, fullName_lastPart]

theorem fullName_ne_nil (T : CaseTable) (username : List Char) (n : Nat) :
    fullName T username n ≠ [] := by
  obtain ⟨s, h | h⟩ := fullName_eq T username n
  · rw [h]; simp
  · rw [h]; exact str_ne_nil _

/-- Under the default template rendering is the cut of the full name. -/
theorem render_default (T : CaseTable) (username : List Char) (n : Nat) :
    renderSystemUsername T defaultTemplate username n =
      (fullName T username n).take maxUsernameLen := by
  have hne := fullName_ne_nil T username n
  have htake : (fullName T username n).take maxUsernameLen ≠ [] := by
    intro h
    rw [List.take_eq_nil_iff] at h
    obtain h | h := h
    · exact absurd h (by decide)
    · exact hne h
  unfold renderSystemUsername
  simp only
  rw [show sanitizeUsername T (fillTemplate defaultTemplate username n) =
    fullName T username n from rfl]
  by_cases hl : (fullName T username n).length > maxUsernameLen
  · rw [if_pos hl, if_pos htake]
  · rw [if_neg hl, if_pos hne, List.take_of_length_le (by omega)]

/-- A name that is already one system name is kept, with the id behind it. -/
theorem fullName_of_single (T : CaseTable) {s : List Char} (hs : SingleName s) (n : Nat) :
    fullName T s n = s ++ '_' :: str (n : Int) := by
  have hbrace : '{' ∉ s := fun hm => absurd (hs.allowed _ hm) (by decide)
  have hfill : fillTemplate defaultTemplate s n = s ++ '_' :: str (n : Int) := by
    rw [fillTemplate_default]
    exact congrArg (· ++ '_' :: str (n : Int)) (replace_of_not_mem '{' _ _ s hbrace)
  have hall : ∀ c ∈ s ++ '_' :: str (n : Int), allowed c = true := by
    intro c hc
    obtain hc | hc := List.mem_append.mp hc
    · exact hs.allowed c hc
    · exact idTail_allowed n c hc
  obtain ⟨c, t, rfl, hc⟩ := hs.head
  obtain ⟨d, hlast, hd⟩ := idTail_last n
  rw [fullName, sanitizeUsername_eq, hfill, lower_of_allowed T hall, map_of_allowed hall]
  exact strip_eq_self rfl hc (by rw [List.getLast?_append, hlast]; rfl) hd

/-- A user's name is shared with no other user, whatever they are called, if and
only if it was not cut: its full text is shorter than the limit. -/
theorem own_name_iff (T : CaseTable) (a : DjangoUsername) (i : Nat) :
    (∀ (b : DjangoUsername) (j : Nat), i ≠ j →
      renderSystemUsername T defaultTemplate a i ≠ renderSystemUsername T defaultTemplate b j) ↔
    (sanitizeUsername T (fillTemplate defaultTemplate a i)).length < maxUsernameLen := by
  change _ ↔ (fullName T a i).length < maxUsernameLen
  constructor
  · intro h
    by_contra hlong
    let c := (fullName T a i).take maxUsernameLen
    have hlen : c.length = maxUsernameLen := by
      rw [List.length_take, Nat.min_eq_left (by omega)]
    have hsingle : SingleName c :=
      (sanitizeUsername_single T _ (fullName_ne_nil T a i)).take _ (by decide)
    have hb : c.length ≤ 150 := by rw [hlen]; decide
    refine h ⟨c, hb⟩ (i + 1) (by omega) ?_
    rw [render_default, render_default, fullName_of_single T hsingle]
    exact (List.take_left' hlen).symm
  · intro hshort b j hij heq
    rw [render_default, render_default, List.take_of_length_le (by omega)] at heq
    have hlen : (fullName T a i).length = ((fullName T b j).take maxUsernameLen).length :=
      congrArg List.length heq
    rw [List.length_take] at hlen
    rw [List.take_of_length_le (by omega)] at heq
    exact hij (fullName_injective T heq)

/-- Two long usernames of the same first 32 letters get one account. -/
theorem default_names_clash :
    ¬ ∀ (a b : DjangoUsername) (i j : Nat), i ≠ j →
      renderSystemUsername .keep defaultTemplate a i ≠
        renderSystemUsername .keep defaultTemplate b j := by
  intro h
  exact h ⟨List.replicate 32 'a', by decide⟩ ⟨List.replicate 33 'a', by decide⟩ 1 2 (by decide)
    (by decide)

end Keywarden.Username
