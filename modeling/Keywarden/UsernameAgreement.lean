import Mathlib.Algebra.Group.Nat.Defs
import Keywarden.AgentSync

/-!
# The user name of the server and the one of the agent

The agent renders a system username by itself when the server has sent none, with the
steps of the server's own function. Both results are names that an account can carry. They
are one name but for U+0130: Python lowers it to two characters, of which the second is
sanitized to `_`, Go lowers it to the first of them alone.
-/
namespace Keywarden.UsernameAgreement

open Text Username
open AgentSync (goLowerChar goSanitizeUsername renderUsername)

/-! ## The sanitizers, character by character -/

/-- The capital I with a dot above. -/
def dotted : Char := Char.ofNat 0x130

def sanitizeChar (c : Char) : Char := if allowed c then c else '_'

/-- What Go's sanitizer makes of one character of the raw text. -/
def goChar (c : Char) : Char :=
  if c.toNat < 128 then sanitizeChar c.toLower
  else if c.toNat = 0x130 then 'i'
  else if c.toNat = 0x212A then 'k'
  else '_'

/-- What Python's sanitizer makes of it. -/
def pyChars (c : Char) : List Char := if c = dotted then ['i', '_'] else [goChar c]

/-- The ends of the raw text that are stripped as `-` and `_` are taken away. -/
def trimmed (raw : List Char) : List Char := strip (fun c => isDash (goChar c)) raw

/-- In the part of the text that fits the limit, everything behind the first U+0130 is
sanitized to `_`. -/
def Agreeing (raw : List Char) : Prop :=
  ∀ c ∈ (((trimmed raw).take maxUsernameLen).dropWhile (· ≠ dotted)).tail, goChar c = '_'

instance (raw : List Char) : Decidable (Agreeing raw) := List.decidableBAll _ _

theorem sanitizeChar_of_nonAscii {c : Char} (h : 128 ≤ c.toNat) : sanitizeChar c = '_' := by
  refine if_neg fun ha => ?_
  have hz : ¬ c ≤ 'z' := fun hle => absurd (show c.toNat ≤ 122 from hle) (by omega)
  have hd : c.isDigit = false := by
    by_contra hd
    have hd : c.isDigit = true := by simpa using hd
    have hle : c.toNat ≤ 57 := (Char.isDigit_iff_toNat.mp hd).2
    omega
  have hu : c ≠ '_' := by rintro rfl; exact absurd h (by decide)
  have hm : c ≠ '-' := by rintro rfl; exact absurd h (by decide)
  simp [allowed, hz, hd, hu, hm] at ha

theorem toNat_eq_dotted {c : Char} (h : c.toNat = 0x130) : c = dotted := by
  rw [← Char.ofNat_toNat c, h]
  rfl

theorem sanitizeChar_goLowerChar (T : CaseTable) (c : Char) :
    sanitizeChar (goLowerChar T c) = goChar c := by
  unfold goLowerChar goChar
  split
  · rfl
  · split
    · rfl
    · split
      · rfl
      · exact sanitizeChar_of_nonAscii (T.nonAscii c (by omega))

theorem map_lowerChar (T : CaseTable) (c : Char) :
    (lowerChar T c).map sanitizeChar = pyChars c := by
  by_cases hc : c = dotted
  · subst hc
    rfl
  · have hn : c.toNat ≠ 0x130 := fun h => hc (toNat_eq_dotted h)
    rw [pyChars, if_neg hc, ← sanitizeChar_goLowerChar T c]
    unfold lowerChar goLowerChar
    rw [if_neg hn, if_neg hn]
    split
    · rfl
    · split
      · rfl
      · rfl

theorem mem_pyChars (c : Char) : goChar c ∈ pyChars c := by
  unfold pyChars
  split
  · next h =>
    subst h
    exact List.mem_cons_self
  · exact List.mem_singleton_self _

/-! ## Stripping -/

section
variable {α : Type} {p : α → Bool}

theorem rdropWhile_append {u v : List α} (h : v.rdropWhile p ≠ []) :
    (u ++ v).rdropWhile p = u ++ v.rdropWhile p := by
  induction v using List.reverseRecOn with
  | nil => exact absurd (List.rdropWhile_nil p) h
  | append_singleton v x ih =>
    rw [← List.append_assoc, List.rdropWhile_concat, List.rdropWhile_concat]
    rw [List.rdropWhile_concat] at h
    split
    · next hx =>
      rw [if_pos hx] at h
      exact ih h
    · rw [List.append_assoc]

theorem rdropWhile_append_all {u v : List α} (h : ∀ x ∈ v, p x = true) :
    (u ++ v).rdropWhile p = u.rdropWhile p := by
  induction v using List.reverseRecOn with
  | nil => rw [List.append_nil]
  | append_singleton v x ih =>
    rw [← List.append_assoc, List.rdropWhile_concat_pos _ _ _ (h x (by simp)),
      ih fun y hy => h y (List.mem_append_left _ hy)]

theorem rdropWhile_append_neg {u v : List α} {x : α} (h : p x = false) :
    (u ++ x :: v).rdropWhile p = u ++ x :: v.rdropWhile p := by
  induction v using List.reverseRecOn with
  | nil => rw [List.rdropWhile_concat_neg _ _ _ (by simp [h]), List.rdropWhile_nil]
  | append_singleton v y ih =>
    rw [List.rdropWhile_concat, ← List.cons_append, ← List.append_assoc, List.rdropWhile_concat, ih]
    split
    · rfl
    · rw [List.append_assoc, List.cons_append]

theorem rdropWhile_ne_nil {s : List α} {x : α} (hx : x ∈ s) (hp : p x = false) :
    s.rdropWhile p ≠ [] := by
  intro h
  have := List.rdropWhile_eq_nil_iff.mp h x hx
  rw [hp] at this
  cases this

theorem strip_map {β : Type} (q : β → Bool) (f : α → β) (s : List α) :
    ((s.map f).dropWhile q).rdropWhile q =
      ((s.dropWhile (q ∘ f)).rdropWhile (q ∘ f)).map f := by
  rw [List.dropWhile_map]
  simp only [List.rdropWhile, ← List.map_reverse, List.dropWhile_map]

end

theorem goSanitizeUsername_eq (T : CaseTable) (raw : List Char) :
    goSanitizeUsername T raw = (trimmed raw).map goChar := by
  have hmap : (raw.map (goLowerChar T)).map sanitizeChar = raw.map goChar := by
    rw [List.map_map]
    exact List.map_congr_left fun c _ => sanitizeChar_goLowerChar T c
  have hstrip : strip isDash ((raw.map (goLowerChar T)).map sanitizeChar) =
      (trimmed raw).map goChar := by
    rw [hmap]
    exact strip_map isDash goChar raw
  unfold goSanitizeUsername
  simp only
  split
  · next h => exact h.symm.trans hstrip
  · rw [if_neg]
    · exact hstrip
    · intro h
      obtain ⟨t, ht⟩ := List.isPrefixOf_iff_prefix.mp h
      exact absurd (head_strip ht.symm) (by decide)

theorem dropWhile_flatMap (raw : List Char) :
    (raw.flatMap pyChars).dropWhile isDash =
      (raw.dropWhile fun c => isDash (goChar c)).flatMap pyChars := by
  induction raw with
  | nil => rfl
  | cons c raw ih =>
    by_cases hc : c = dotted
    · subst hc
      rfl
    · have hpy : pyChars c = [goChar c] := if_neg hc
      rw [List.flatMap_cons, hpy, List.singleton_append, List.dropWhile_cons, List.dropWhile_cons]
      split
      · exact ih
      · rw [List.flatMap_cons, hpy, List.singleton_append]

theorem sanitizeUsername_expanded (T : CaseTable) (raw : List Char) :
    sanitizeUsername T raw = ((trimmed raw).flatMap pyChars).rdropWhile isDash := by
  have hmap : (lower T raw).map sanitizeChar = raw.flatMap pyChars := by
    rw [lower, List.map_flatMap]
    simp only [map_lowerChar]
  have hraw : sanitizeUsername T raw =
      ((raw.dropWhile fun c => isDash (goChar c)).flatMap pyChars).rdropWhile isDash := by
    rw [sanitizeUsername_eq, ← dropWhile_flatMap, ← hmap]
    rfl
  rw [hraw, trimmed, strip]
  generalize (raw.dropWhile fun c => isDash (goChar c)) = u
  have hdash : ∀ x ∈ (u.rtakeWhile fun c => isDash (goChar c)).flatMap pyChars, isDash x = true := by
    intro x hx
    obtain ⟨c, hc, hx⟩ := List.mem_flatMap.mp hx
    have hd := List.mem_rtakeWhile_imp hc
    by_cases hdot : c = dotted
    · subst hdot
      exact absurd hd (by decide)
    · rw [pyChars, if_neg hdot, List.mem_singleton] at hx
      rw [hx]
      exact hd
  have hsplit : (u.rdropWhile fun c => isDash (goChar c)) ++
      (u.rtakeWhile fun c => isDash (goChar c)) = u := List.rdropWhile_append_rtakeWhile
  conv => lhs; rw [← hsplit, List.flatMap_append, rdropWhile_append_all hdash]

/-! ## Where the two texts part -/

/-- The last character of the text, if there is one, is not stripped. -/
def Ended (s : List Char) : Prop := ∀ c ∈ s.getLast?, isDash (goChar c) = false

theorem ended_trimmed (raw : List Char) : Ended (trimmed raw) := by
  intro c hc
  have hne : trimmed raw ≠ [] := by
    rintro h
    rw [h] at hc
    cases hc
  rw [List.getLast?_eq_some_getLast hne, Option.mem_some_iff] at hc
  have hlast := List.rdropWhile_last_not _ _ hne
  rw [← hc, ← Bool.not_eq_true]
  exact hlast

theorem Ended.tail {c : Char} {s : List Char} (h : Ended (c :: s)) (hs : s ≠ []) : Ended s := by
  intro d hd
  refine h d ?_
  rwa [List.getLast?_cons_of_ne_nil hs]

theorem Ended.rdropWhile_ne_nil {s : List Char} (h : Ended s) (hs : s ≠ []) :
    (s.flatMap pyChars).rdropWhile isDash ≠ [] := by
  have hlast : isDash (goChar (s.getLast hs)) = false :=
    h _ (List.getLast?_eq_some_getLast hs)
  exact UsernameAgreement.rdropWhile_ne_nil
    (List.mem_flatMap.mpr ⟨_, List.getLast_mem hs, mem_pyChars _⟩) hlast

/-- The texts behind a U+0130, with the `_` that only Python has, agree up to a place when
nothing else than `_` comes before it. -/
theorem take_eq_iff {s : List Char} (h : Ended s) (m : Nat) :
    (s.map goChar).take m = (('_' :: s.flatMap pyChars).rdropWhile isDash).take m ↔
      ∀ c ∈ s.take m, goChar c = '_' := by
  induction s generalizing m with
  | nil => simp [List.rdropWhile_singleton, isDash]
  | cons c s ih =>
    cases m with
    | zero => simp
    | succ m =>
      have hrest := h.rdropWhile_ne_nil (List.cons_ne_nil c s)
      have hcons : ('_' :: (c :: s).flatMap pyChars).rdropWhile isDash =
          '_' :: ((c :: s).flatMap pyChars).rdropWhile isDash :=
        rdropWhile_append (u := ['_']) hrest
      rw [hcons, List.map_cons, List.take_succ_cons, List.take_succ_cons, List.take_succ_cons,
        List.cons_eq_cons, List.forall_mem_cons]
      refine and_congr_right fun hc => ?_
      have hs : s ≠ [] := by
        rintro rfl
        have hd := h c rfl
        rw [hc] at hd
        cases hd
      have hpy : pyChars c = ['_'] := by
        rw [pyChars, if_neg, hc]
        rintro rfl
        cases hc
      rw [List.flatMap_cons, hpy, List.singleton_append]
      exact ih (h.tail hs) m

theorem take_limit (s : List Char) :
    (if s.length > maxUsernameLen then s.take maxUsernameLen else s) = s.take maxUsernameLen := by
  split
  · rfl
  · next h => rw [List.take_of_length_le (by omega)]

theorem take_limit_eq_nil {s : List Char} : s.take maxUsernameLen = [] ↔ s = [] := by
  simp [maxUsernameLen]

/-! ## The two names -/

variable (T T' : CaseTable) (template username : List Char) (userId : Int)

theorem renderUsername_eq : renderUsername T template username userId =
    if trimmed (fillTemplate template username userId) = [] then "kw_".toList ++ str userId
    else ((trimmed (fillTemplate template username userId)).map goChar).take maxUsernameLen := by
  unfold renderUsername
  simp only
  rw [goSanitizeUsername_eq, take_limit]
  simp only [take_limit_eq_nil, List.map_eq_nil_iff]

theorem renderSystemUsername_eq : renderSystemUsername T template username userId =
    if trimmed (fillTemplate template username userId) = [] then "kw_".toList ++ str userId
    else (((trimmed (fillTemplate template username userId)).flatMap pyChars).rdropWhile isDash).take
      maxUsernameLen := by
  unfold renderSystemUsername
  simp only
  rw [sanitizeUsername_expanded, take_limit]
  simp only [ne_eq, take_limit_eq_nil, ite_not]
  generalize hs : trimmed (fillTemplate template username userId) = s
  have hended : Ended s := hs ▸ ended_trimmed _
  by_cases hnil : s = []
  · rw [if_pos hnil, hnil]
    rfl
  · rw [if_neg hnil, if_neg (hended.rdropWhile_ne_nil hnil)]

theorem flatMap_pyChars {s : List Char} (h : dotted ∉ s) : s.flatMap pyChars = s.map goChar := by
  induction s with
  | nil => rfl
  | cons c s ih =>
    rw [List.mem_cons, not_or] at h
    rw [List.flatMap_cons, ih h.2, pyChars, if_neg fun hc => h.1 hc.symm, List.map_cons,
      List.singleton_append]

theorem dropWhile_ne_dotted {a : List Char} (h : dotted ∉ a) (b : List Char) :
    (a ++ b).dropWhile (· ≠ dotted) = b.dropWhile (· ≠ dotted) :=
  List.dropWhile_append_of_pos fun c hc => by
    rw [decide_eq_true_eq]
    rintro rfl
    exact h hc

/-- What of the text is behind the first U+0130 and within the limit. -/
theorem tail_dropWhile_take {a : List Char} (h : dotted ∉ a) (b : List Char) (n : Nat) :
    (((a ++ dotted :: b).take n).dropWhile (· ≠ dotted)).tail = b.take (n - (a.length + 1)) := by
  rw [List.take_append, dropWhile_ne_dotted fun hm => h (List.mem_of_mem_take hm)]
  by_cases hn : n ≤ a.length
  · rw [Nat.sub_eq_zero_of_le hn, Nat.sub_eq_zero_of_le (by omega)]
    rfl
  · obtain ⟨m, hm⟩ : ∃ m, n - a.length = m + 1 := ⟨n - a.length - 1, by omega⟩
    rw [hm, List.take_succ_cons, List.dropWhile_cons_of_neg (by simp), List.tail_cons,
      show n - (a.length + 1) = m by omega]

/-- Behind the first U+0130 the two texts are the same or not, as `take_eq_iff` says. -/
theorem take_eq_iff_of_dotted {a b : List Char} (ha : dotted ∉ a) (hb : Ended b) (n : Nat) :
    ((a ++ dotted :: b).map goChar).take n =
        (((a ++ dotted :: b).flatMap pyChars).rdropWhile isDash).take n ↔
      ∀ c ∈ (((a ++ dotted :: b).take n).dropWhile (· ≠ dotted)).tail, goChar c = '_' := by
  have hgo : (a ++ dotted :: b).map goChar = (a.map goChar ++ ['i']) ++ b.map goChar := by
    rw [List.map_append, List.map_cons, List.append_assoc]
    rfl
  have hpy : ((a ++ dotted :: b).flatMap pyChars).rdropWhile isDash =
      (a.map goChar ++ ['i']) ++ ('_' :: b.flatMap pyChars).rdropWhile isDash := by
    rw [List.flatMap_append, flatMap_pyChars ha, List.flatMap_cons, List.append_assoc]
    exact rdropWhile_append_neg (by decide)
  have hlen : (a.map goChar ++ ['i']).length = a.length + 1 := by
    rw [List.length_append, List.length_map, List.length_singleton]
  rw [hgo, hpy, tail_dropWhile_take ha, ← take_eq_iff hb, ← hlen]
  generalize a.map goChar ++ ['i'] = front
  rw [List.take_append, List.take_append, List.append_right_inj]

/-- Without a U+0130 they are the same. -/
theorem rdropWhile_pyChars {s : List Char} (h : Ended s) (hdot : dotted ∉ s) :
    (s.flatMap pyChars).rdropWhile isDash = s.map goChar := by
  rw [flatMap_pyChars hdot, List.rdropWhile_eq_self_iff]
  intro hne
  have hs : s ≠ [] := fun hs => hne (by rw [hs, List.map_nil])
  rw [List.getLast_map, h _ (List.getLast?_eq_some_getLast hs)]
  exact Bool.false_ne_true

theorem tail_dropWhile_of_not_mem {s : List Char} (h : dotted ∉ s) :
    (s.dropWhile (· ≠ dotted)).tail = [] := by
  have hdrop := dropWhile_ne_dotted h []
  rw [List.append_nil] at hdrop
  rw [hdrop]
  rfl

theorem take_goChar_eq_iff {s : List Char} (h : Ended s) (n : Nat) :
    (s.map goChar).take n = ((s.flatMap pyChars).rdropWhile isDash).take n ↔
      ∀ c ∈ ((s.take n).dropWhile (· ≠ dotted)).tail, goChar c = '_' := by
  by_cases hdot : dotted ∈ s
  · obtain ⟨a, b, rfl, ha⟩ := List.eq_append_cons_of_mem hdot
    have hb : Ended b := by
      intro c hc
      have hnil : b ≠ [] := by
        rintro rfl
        cases hc
      refine h c ?_
      rwa [List.getLast?_append_of_ne_nil _ (List.cons_ne_nil _ _), List.getLast?_cons_of_ne_nil hnil]
    exact take_eq_iff_of_dotted ha hb n
  · rw [rdropWhile_pyChars h hdot, tail_dropWhile_of_not_mem fun hm => hdot (List.mem_of_mem_take hm)]
    exact iff_of_true rfl fun c hc => absurd hc List.not_mem_nil

/-- For any template, user name and id, with whatever case tables: the agent falls back to
the name that certificates are made out to if and only if, in the part of the text that fits
the limit, only `_` comes behind a U+0130. -/
theorem renderUsername_eq_iff :
    renderUsername T template username userId = renderSystemUsername T' template username userId ↔
      Agreeing (fillTemplate template username userId) := by
  rw [renderUsername_eq, renderSystemUsername_eq, Agreeing]
  have hended := ended_trimmed (fillTemplate template username userId)
  generalize trimmed (fillTemplate template username userId) = s at hended
  rw [← take_goChar_eq_iff hended]
  by_cases hnil : s = []
  · subst hnil
    exact iff_of_true rfl rfl
  · rw [if_neg hnil, if_neg hnil]

/-- A user whose name starts with U+0130, under a template that is the name alone. -/
theorem names_part : ¬ ∀ (T T' : CaseTable) (template username : List Char) (userId : Int),
    renderUsername T template username userId = renderSystemUsername T' template username userId := by
  intro h
  have hpart := h .keep .keep usernameField [dotted, 'a'] 7
  exact absurd hpart (by decide +kernel)

/-! ## What the names are like -/

/-- A name for `useradd`, `usermod`, `ssh` and the list of principals of a certificate. -/
structure AccountName (s : List Char) : Prop where
  nonempty : 1 ≤ s.length
  short : s.length ≤ 32
  allowed : ∀ c ∈ s, ('a' ≤ c ∧ c ≤ 'z') ∨ c.isDigit = true ∨ c = '_' ∨ c = '-'
  head : ∃ c ∈ s.head?, ('a' ≤ c ∧ c ≤ 'z') ∨ c.isDigit = true
  not_flag : s.head? ≠ some '-'
  one_principal : ',' ∉ s

theorem allowed_iff {c : Char} :
    allowed c = true ↔ ('a' ≤ c ∧ c ≤ 'z') ∨ c.isDigit = true ∨ c = '_' ∨ c = '-' := by
  simp [allowed, or_assoc]

theorem accountName_of_single {s : List Char} (h : SingleName s) (hs : s.length ≤ 32) :
    AccountName s := by
  obtain ⟨c, t, rfl, hc⟩ := h.head
  have hdash : c ≠ '_' ∧ c ≠ '-' := by
    constructor
    · rintro rfl
      cases hc
    · rintro rfl
      cases hc
  refine ⟨Nat.succ_pos _, hs, fun d hd => allowed_iff.mp (h.allowed d hd), ⟨c, rfl, ?_⟩, ?_, h.no_comma⟩
  · obtain hl | hd | hu | hm := allowed_iff.mp (h.allowed c List.mem_cons_self)
    · exact .inl hl
    · exact .inr hd
    · exact absurd hu hdash.1
    · exact absurd hm hdash.2
  · exact fun hm => hdash.2 (Option.some.inj hm)

theorem goChar_single {raw : List Char} (h : trimmed raw ≠ []) :
    SingleName ((trimmed raw).map goChar) := by
  constructor
  · intro x hx
    obtain ⟨c, _, rfl⟩ := List.mem_map.mp hx
    rw [← sanitizeChar_goLowerChar .keep]
    exact replaced_allowed _
  · obtain ⟨c, t, ht⟩ := List.exists_cons_of_ne_nil h
    have hc := head_strip (p := fun c => isDash (goChar c)) ht
    exact ⟨goChar c, t.map goChar, by rw [ht, List.map_cons], hc⟩

/-- The agent's name is a single one too. -/
theorem renderUsername_single : SingleName (renderUsername T template username userId) := by
  rw [renderUsername_eq]
  split
  · exact fallback_single userId
  · next h => exact (goChar_single h).take maxUsernameLen (by decide)

theorem length_str_int64 (i : Int64) : (str i.toInt).length ≤ 20 := by
  have hlo := i.le_toInt
  have hhi := i.toInt_lt
  generalize i.toInt = n at hlo hhi
  cases n with
  | ofNat n =>
    rw [Int.ofNat_eq_natCast] at hhi ⊢
    rw [str_natCast, Nat.length_toDigits_le_iff (by decide) (by decide)]
    omega
  | negSucc n =>
    have hs : str (Int.negSucc n) = '-' :: Nat.toDigits 10 (n + 1) := by
      have hrepr : toString (Int.negSucc n) = "-" ++ Nat.repr (n + 1) := rfl
      rw [str, hrepr, String.toList_append, Nat.toList_repr]
      rfl
    rw [hs, List.length_cons, Nat.succ_le_succ_iff, Nat.length_toDigits_le_iff (by decide) (by decide)]
    omega

theorem length_fallback (i : Int64) : ("kw_".toList ++ str i.toInt).length ≤ 32 := by
  have h := length_str_int64 i
  rw [List.length_append, show "kw_".toList.length = 3 from rfl]
  omega

/-- Whatever the template, the user name and the id of 64 bits, the server and the agent
render names that accounts and certificates can carry. -/
theorem rendered_accountName (i : Int64) : AccountName (renderSystemUsername T template username i.toInt) ∧
    AccountName (renderUsername T' template username i.toInt) := by
  constructor
  · refine accountName_of_single (renderSystemUsername_single _ _ _ _) ?_
    rw [renderSystemUsername_eq]
    split
    · exact length_fallback i
    · exact List.length_take_le _ _
  · refine accountName_of_single (renderUsername_single _ _ _ _) ?_
    rw [renderUsername_eq]
    split
    · exact length_fallback i
    · exact List.length_take_le _ _

end Keywarden.UsernameAgreement
