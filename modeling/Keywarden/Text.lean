import Mathlib.Data.List.DropRight

/-!
# Text as lists of characters

The string operations of the standard libraries the two programs are written
in, on lists of code points: substring replacement, stripping, and printing of
integers. A text is a `List Char`, so every operation is structural.
-/
namespace Text

/-- Replacement in progress; the first argument counts the characters of a match
that are still to be passed over. -/
def replaceFrom (pat rep : List Char) : Nat → List Char → List Char
  | _, [] => []
  | k + 1, _ :: cs => replaceFrom pat rep k cs
  | 0, c :: cs =>
    if pat.isPrefixOf (c :: cs) then rep ++ replaceFrom pat rep (pat.length - 1) cs
    else c :: replaceFrom pat rep 0 cs

/-- `s.replace(pat, rep)` for a non-empty pattern: from the left, without overlaps. -/
def replace (pat rep s : List Char) : List Char := replaceFrom pat rep 0 s

/-- `s.strip(chars)`, the characters given by a predicate. -/
def strip (p : Char → Bool) (s : List Char) : List Char := (s.dropWhile p).rdropWhile p

/-- `str.isspace` on one character, which `str.strip()` and `str.split()` go by. -/
def isSpace (c : Char) : Bool :=
  let n := c.toNat
  (9 ≤ n && n ≤ 13) || (28 ≤ n && n ≤ 32) || n == 0x85 || n == 0xA0 || n == 0x1680 ||
    (0x2000 ≤ n && n ≤ 0x200A) || n == 0x2028 || n == 0x2029 || n == 0x202F || n == 0x205F ||
    n == 0x3000

/-- No character that prints is space. -/
theorem isSpace_of_printing {c : Char} (h : 33 ≤ c.toNat ∧ c.toNat ≤ 126) : isSpace c = false := by
  simp only [isSpace, Bool.or_eq_false_iff, Bool.and_eq_false_iff, decide_eq_false_iff_not,
    beq_eq_false_iff_ne]
  omega

theorem printing_of_isAlphanum {c : Char} (h : c.isAlphanum = true) :
    33 ≤ c.toNat ∧ c.toNat ≤ 126 := by
  unfold Char.isAlphanum Char.isAlpha Char.isUpper Char.isLower Char.isDigit at h
  simp only [Bool.or_eq_true, Bool.and_eq_true, decide_eq_true_eq, UInt32.le_iff_toNat_le,
    ge_iff_le] at h
  have hval : c.toNat = c.val.toNat := rfl
  have hA : 'A'.val.toNat = 65 := rfl
  have hz : 'z'.val.toNat = 122 := rfl
  have hZ : 'Z'.val.toNat = 90 := rfl
  have ha : 'a'.val.toNat = 97 := rfl
  have h0 : '0'.val.toNat = 48 := rfl
  have h9 : '9'.val.toNat = 57 := rfl
  omega

/-- `s.split()`: the runs of characters that are not space. -/
def words (s : List Char) : List (List Char) := (s.splitOnP isSpace).filter (· ≠ [])

/-- A text that splits into itself. -/
structure Word (w : List Char) : Prop where
  ne_nil : w ≠ []
  plain : ∀ c ∈ w, isSpace c = false

theorem not_of_mem_splitOnP {p : Char → Bool} {s w : List Char} {c : Char}
    (hw : w ∈ s.splitOnP p) (hc : c ∈ w) : p c = false := by
  induction s generalizing w with
  | nil =>
    cases List.mem_singleton.mp hw
    cases hc
  | cons x s ih =>
    rw [List.splitOnP_cons_eq_if_modifyHead] at hw
    split at hw
    · obtain rfl | hw := List.mem_cons.mp hw
      · cases hc
      · exact ih hw hc
    · next hx =>
      obtain ⟨v, vs, hv⟩ := List.exists_cons_of_ne_nil (List.splitOnP_ne_nil p s)
      rw [hv, List.modifyHead_cons] at hw
      obtain rfl | hw := List.mem_cons.mp hw
      · obtain rfl | hc := List.mem_cons.mp hc
        · exact Bool.eq_false_iff.mpr hx
        · exact ih (hv ▸ List.mem_cons_self) hc
      · exact ih (hv ▸ List.mem_cons_of_mem v hw) hc

theorem word_of_mem_words {s w : List Char} (h : w ∈ words s) : Word w := by
  obtain ⟨hw, hne⟩ := List.mem_filter.mp h
  exact ⟨of_decide_eq_true hne, fun c hc => not_of_mem_splitOnP hw hc⟩

theorem Word.words_eq {w : List Char} (h : Word w) : words w = [w] := by
  rw [words, List.splitOnP_eq_singleton h.plain]
  simp [h.ne_nil]

/-- A word with space behind it is the first one. -/
theorem Word.words_append {w : List Char} (h : Word w) {d : Char} (hd : isSpace d = true)
    (s : List Char) : words (w ++ d :: s) = w :: words s := by
  rw [words, List.splitOnP_append_cons_of_forall_mem h.plain _ hd, List.filter_cons, ← words]
  simp [h.ne_nil]

/-- `str(n)`. -/
def str (n : Int) : List Char := (toString n).toList

theorem replaceFrom_skip (pat rep : List Char) (k : Nat) (s : List Char) (h : s.length ≤ k) :
    replaceFrom pat rep k s = [] := by
  induction s generalizing k with
  | nil => cases k <;> rfl
  | cons c cs ih =>
    cases k with
    | zero => simp at h
    | succ k => exact ih k (by simpa using h)

/-- A pattern replaces to the replacement. -/
theorem replace_self (c : Char) (pat rep : List Char) :
    replace (c :: pat) rep (c :: pat) = rep := by
  have h : (c :: pat).isPrefixOf (c :: pat) = true :=
    List.isPrefixOf_iff_prefix.mpr (List.prefix_refl _)
  simp [replace, replaceFrom, h, replaceFrom_skip]

/-- A text without the first character of the pattern has no match. -/
theorem replace_of_not_mem (c : Char) (pat rep s : List Char) (h : c ∉ s) :
    replace (c :: pat) rep s = s := by
  induction s with
  | nil => rfl
  | cons d s ih =>
    simp only [List.mem_cons, not_or] at h
    have hp : (c :: pat).isPrefixOf (d :: s) = false := by
      simp [List.isPrefixOf, h.1]
    have hs := ih h.2
    simp only [replace] at hs ⊢
    simp [replaceFrom, hp, hs]

theorem replaceFrom_append (pat rep u v : List Char)
    (h : ∀ w, w <:+ u → w ≠ [] → pat <+: w ++ v → pat.length ≤ w.length)
    (k : Nat) (hk : k ≤ u.length) :
    replaceFrom pat rep k (u ++ v) = replaceFrom pat rep k u ++ replaceFrom pat rep 0 v := by
  induction u generalizing k with
  | nil =>
    have hk0 : k = 0 := by simpa using hk
    subst hk0
    rfl
  | cons c u ih =>
    have h' : ∀ w, w <:+ u → w ≠ [] → pat <+: w ++ v → pat.length ≤ w.length := by
      intro w hw
      exact h w (hw.trans (List.suffix_cons c u))
    cases k with
    | succ k => exact ih h' k (by simpa using hk)
    | zero =>
      simp only [List.cons_append, replaceFrom]
      by_cases hm : pat <+: c :: (u ++ v)
      · have hl : pat.length ≤ (c :: u).length :=
          h (c :: u) (List.suffix_refl _) (by simp) hm
        have hs : pat <+: c :: u := by
          refine List.prefix_of_prefix_length_le hm ?_ hl
          exact ⟨v, rfl⟩
        rw [if_pos (List.isPrefixOf_iff_prefix.mpr hm), if_pos (List.isPrefixOf_iff_prefix.mpr hs),
          ih h' (pat.length - 1) (by simp only [List.length_cons] at hl; omega), List.append_assoc]
      · have hs : ¬ pat <+: c :: u := fun hs => hm (hs.trans ⟨v, rfl⟩)
        rw [if_neg (fun hi => hm (List.isPrefixOf_iff_prefix.mp hi)),
          if_neg (fun hi => hs (List.isPrefixOf_iff_prefix.mp hi)), ih h' 0 (by simp)]
        rfl

/-- Replacement works on the two halves of a text on their own when no match
runs across the join. -/
theorem replace_append (pat rep u v : List Char)
    (h : ∀ w, w <:+ u → w ≠ [] → pat <+: w ++ v → pat.length ≤ w.length) :
    replace pat rep (u ++ v) = replace pat rep u ++ replace pat rep v :=
  replaceFrom_append pat rep u v h 0 (Nat.zero_le _)

theorem length_replaceFrom_le {pat rep : List Char} (hrep : rep.length ≤ pat.length) (k : Nat)
    (s : List Char) (hk : k ≤ s.length) : (replaceFrom pat rep k s).length + k ≤ s.length := by
  induction s generalizing k with
  | nil => simpa [replaceFrom] using hk
  | cons c cs ih =>
    simp only [List.length_cons] at hk ⊢
    cases k with
    | succ k =>
      have h := ih k (by omega)
      rw [replaceFrom]
      omega
    | zero =>
      rw [replaceFrom]
      split
      · next hm =>
        have hle : pat.length ≤ cs.length + 1 := (List.isPrefixOf_iff_prefix.mp hm).length_le
        have h := ih (pat.length - 1) (by omega)
        rw [List.length_append]
        omega
      · have h := ih 0 (Nat.zero_le _)
        rw [List.length_cons]
        omega

/-- A text that has the pattern in it gets shorter when the replacement is shorter. -/
theorem length_replace_lt {pat s : List Char} (rep : List Char) (hrep : rep.length < pat.length)
    (h : pat <:+: s) : (replace pat rep s).length < s.length := by
  induction s with
  | nil =>
    rw [List.infix_nil.mp h] at hrep
    cases hrep
  | cons c cs ih =>
    rw [replace, replaceFrom, List.length_cons]
    split
    · next hm =>
      have hle : pat.length ≤ cs.length + 1 := (List.isPrefixOf_iff_prefix.mp hm).length_le
      have hrest := length_replaceFrom_le (Nat.le_of_lt hrep) (pat.length - 1) cs (by omega)
      rw [List.length_append]
      omega
    · next hm =>
      obtain hpre | hinfix := List.infix_cons_iff.mp h
      · exact absurd (List.isPrefixOf_iff_prefix.mpr hpre) hm
      · have hcs := ih hinfix
        rw [replace] at hcs
        rw [List.length_cons]
        omega

theorem mem_intercalate {c x : Char} {parts : List (List Char)} (h : c ∈ [x].intercalate parts) :
    c = x ∨ ∃ p ∈ parts, c ∈ p := by
  induction parts with
  | nil => cases h
  | cons p parts ih =>
    cases parts with
    | nil =>
      rw [List.intercalate_singleton] at h
      exact .inr ⟨p, List.mem_singleton_self p, h⟩
    | cons q parts =>
      rw [List.intercalate_cons_cons, List.append_assoc, List.mem_append, List.mem_append,
        List.mem_singleton] at h
      obtain h | h | h := h
      · exact .inr ⟨p, List.mem_cons_self, h⟩
      · exact .inl h
      · obtain h | ⟨r, hr, hc⟩ := ih h
        · exact .inl h
        · exact .inr ⟨r, List.mem_cons_of_mem p hr, hc⟩

theorem mem_of_mem_strip {p : Char → Bool} {s : List Char} {c : Char} (h : c ∈ strip p s) :
    c ∈ s :=
  (List.dropWhile_suffix p).subset ((List.rdropWhile_prefix p _).subset h)

/-- What stripping leaves does not start with a stripped character. -/
theorem head_strip {p : Char → Bool} {s : List Char} {c : Char} {t : List Char}
    (h : strip p s = c :: t) : p c = false := by
  have hpre : c :: t <+: s.dropWhile p := by
    rw [← h]
    exact List.rdropWhile_prefix p _
  obtain ⟨r, hr⟩ := hpre
  have hd := List.head?_dropWhile_not p s
  rw [← hr] at hd
  simpa using hd

/-- A text that starts and ends with characters to keep is its own strip. -/
theorem strip_eq_self {p : Char → Bool} {c d : Char} {s : List Char}
    (hs : s.head? = some c) (hc : p c = false) (hl : s.getLast? = some d) (hd : p d = false) :
    strip p s = s := by
  have hdrop : s.dropWhile p = s := by
    cases s with
    | nil => rfl
    | cons a s =>
      simp only [List.head?_cons, Option.some.injEq] at hs
      subst hs
      simp [hc]
  rw [strip, hdrop, List.rdropWhile_eq_self_iff]
  intro hne
  rw [List.getLast?_eq_some_getLast hne] at hl
  simp only [Option.some.injEq] at hl
  simp [hl, hd]

theorem strip_of_forall {p : Char → Bool} {s : List Char} (h : ∀ c ∈ s, p c = false) :
    strip p s = s := by
  have hdrop : s.dropWhile p = s := by
    cases s with
    | nil => rfl
    | cons c s => rw [List.dropWhile_cons_of_neg (by simp [h c List.mem_cons_self])]
  rw [strip, hdrop, List.rdropWhile_eq_self_iff]
  exact fun hne => by simp [h _ (List.getLast_mem hne)]

theorem strip_strip (p : Char → Bool) (s : List Char) : strip p (strip p s) = strip p s := by
  have hdrop : (strip p s).dropWhile p = strip p s := by
    cases h : strip p s with
    | nil => rfl
    | cons c t => rw [List.dropWhile_cons_of_neg (by simp [head_strip h])]
  rw [strip, hdrop]
  exact List.rdropWhile_idempotent _ _

/-- The right-hand end survives a strip when it ends in a character to keep. -/
theorem strip_append {p : Char → Bool} {d : Char} {s t : List Char}
    (ht : t.getLast? = some d) (hd : p d = false) :
    strip p (s ++ t) = s.dropWhile p ++ (if s.dropWhile p = [] then t.dropWhile p else t) := by
  have hdrop : (s ++ t).dropWhile p =
      s.dropWhile p ++ (if s.dropWhile p = [] then t.dropWhile p else t) := by
    rw [List.dropWhile_append]
    by_cases h : s.dropWhile p = []
    · simp [h]
    · simp [h, List.isEmpty_iff]
  have htne : t ≠ [] := by rintro rfl; simp at ht
  have hlast : t.getLast htne = d := by
    rw [List.getLast?_eq_some_getLast htne] at ht
    simpa using ht
  have hdt : ∃ hne : t.dropWhile p ≠ [], (t.dropWhile p).getLast hne = d := by
    have hne : t.dropWhile p ≠ [] := by
      intro h
      have hall := List.dropWhile_eq_nil_iff.mp h d (hlast ▸ List.getLast_mem htne)
      rw [hd] at hall
      exact absurd hall (by simp)
    refine ⟨hne, ?_⟩
    rw [← hlast]
    exact (List.dropWhile_suffix p).getLast hne
  rw [strip, hdrop, List.rdropWhile_eq_self_iff]
  intro hne
  by_cases h : s.dropWhile p = []
  · obtain ⟨hne', hl⟩ := hdt
    simp only [h, if_true, List.nil_append, hl]
    simp [hd]
  · simp only [if_neg h, List.getLast_append_of_ne_nil _ htne, hlast]
    simp [hd]

theorem str_natCast (n : Nat) : str (n : Int) = Nat.toDigits 10 n := by
  have h : (toString (n : Int)) = Nat.repr n := rfl
  rw [str, h, Nat.toList_repr]

/-- Distinct numbers print differently. -/
theorem str_injective {m n : Nat} (h : str (m : Int) = str (n : Int)) : m = n := by
  rw [str_natCast, str_natCast] at h
  rw [← Nat.ofDigitChars_ten_toDigits (n := m), h, Nat.ofDigitChars_ten_toDigits]

theorem isDigit_of_mem_str {n : Nat} {c : Char} (h : c ∈ str (n : Int)) : c.isDigit = true := by
  rw [str_natCast] at h
  exact Nat.isDigit_of_mem_toDigits (by decide) (by decide) h

theorem str_ne_nil (n : Int) : str n ≠ [] := by
  cases n with
  | ofNat n =>
    have h := str_natCast n
    simp only [Int.ofNat_eq_natCast, h]
    exact Nat.toDigits_ne_nil
  | negSucc n =>
    intro h
    have hs : (toString (Int.negSucc n)) = "-" ++ Nat.repr (n + 1) := rfl
    simp [str, hs] at h

theorem str_negSucc (n : Nat) : str (Int.negSucc n) = '-' :: Nat.toDigits 10 (n + 1) := by
  have h : toString (Int.negSucc n) = "-" ++ Nat.repr (n + 1) := rfl
  rw [str, h, String.toList_append, Nat.toList_repr]
  rfl

/-- An integer prints as digits, after a sign when it is negative. -/
theorem mem_str {n : Int} {c : Char} (h : c ∈ str n) : c.isDigit = true ∨ c = '-' := by
  cases n with
  | ofNat n => exact .inl (isDigit_of_mem_str h)
  | negSucc n =>
    have hs : (toString (Int.negSucc n)) = "-" ++ Nat.repr (n + 1) := rfl
    rw [str, hs, String.toList_append, List.mem_append, Nat.toList_repr] at h
    obtain h | h := h
    · right; simpa using h
    · left; exact Nat.isDigit_of_mem_toDigits (by decide) (by decide) h

/-- Every run of `a` is one `a`. -/
def squeeze [DecidableEq α] (a : α) : List α → List α
  | [] => []
  | b :: s => if b = a ∧ s.head? = some a then squeeze a s else b :: squeeze a s

section Squeeze
variable [DecidableEq α] [DecidableEq β] {a : α}

@[simp] theorem head?_squeeze (s : List α) : (squeeze a s).head? = s.head? := by
  induction s with
  | nil => rfl
  | cons b s ih =>
    rw [squeeze]
    split
    · next h => rw [ih, h.2, h.1, List.head?_cons]
    · rfl

/-- What the squeeze of a longer text is depends on the squeeze of the shorter one only. -/
theorem squeeze_cons (b : α) (s : List α) : squeeze a (b :: s) =
    if b = a ∧ (squeeze a s).head? = some a then squeeze a s else b :: squeeze a s := by
  rw [head?_squeeze, squeeze]

@[simp] theorem squeeze_squeeze (s : List α) : squeeze a (squeeze a s) = squeeze a s := by
  induction s with
  | nil => rfl
  | cons b s ih =>
    rw [squeeze_cons]
    split
    · exact ih
    · next h => rw [squeeze_cons, ih, if_neg h]

@[simp] theorem squeeze_append_squeeze (u v : List α) :
    squeeze a (u ++ squeeze a v) = squeeze a (u ++ v) := by
  induction u with
  | nil => exact squeeze_squeeze v
  | cons b u ih => rw [List.cons_append, squeeze_cons, ih, List.cons_append, squeeze_cons]

@[simp] theorem squeeze_squeeze_append (u v : List α) :
    squeeze a (squeeze a u ++ v) = squeeze a (u ++ v) := by
  induction u with
  | nil => rfl
  | cons b u ih =>
    by_cases h : b = a ∧ u.head? = some a
    · have hv : (u ++ v).head? = some a := by rw [List.head?_append, h.2, Option.some_or]
      rw [squeeze, if_pos h, ih, List.cons_append, squeeze, if_pos ⟨h.1, hv⟩]
    · rw [squeeze, if_neg h, List.cons_append, squeeze_cons, ih, List.cons_append, squeeze_cons]

theorem squeeze_cons_self (s : List α) : squeeze a (a :: a :: s) = squeeze a (a :: s) := by
  rw [squeeze, if_pos ⟨rfl, rfl⟩]

/-- A text that starts with `a` is not changed by one more in front. -/
theorem squeeze_cons_head {s : List α} (h : s.head? = some a) :
    squeeze a (a :: s) = squeeze a s := by
  rw [squeeze, if_pos ⟨rfl, h⟩]

theorem squeeze_append_of_not_mem {u v : List α} (h : a ∉ u) :
    squeeze a (u ++ v) = u ++ squeeze a v := by
  induction u with
  | nil => rfl
  | cons b u ih =>
    rw [List.mem_cons, not_or] at h
    rw [List.cons_append, squeeze, if_neg fun hb => h.1 hb.1.symm, ih h.2, List.cons_append]

theorem squeeze_eq_self {s : List α} (h : ¬ [a, a] <:+: s) : squeeze a s = s := by
  induction s with
  | nil => rfl
  | cons b s ih =>
    have hs : ¬ [a, a] <:+: s := fun hs => h (hs.trans (List.suffix_cons b s).isInfix)
    rw [squeeze, ih hs, if_neg]
    rintro ⟨rfl, hhead⟩
    obtain ⟨t, rfl⟩ := List.head?_eq_some_iff.mp hhead
    exact h ⟨[], t, rfl⟩

@[simp] theorem mem_squeeze {b : α} {s : List α} : b ∈ squeeze a s ↔ b ∈ s := by
  induction s with
  | nil => rfl
  | cons d s ih =>
    rw [squeeze]
    split
    · next h =>
      have ha : a ∈ s := List.mem_of_mem_head? h.2
      rw [ih, List.mem_cons, h.1]
      exact ⟨.inr, fun hb => hb.elim (fun hb => hb ▸ ha) id⟩
    · rw [List.mem_cons, ih, List.mem_cons]

/-- Only the run matters, not how long it is. -/
theorem squeeze_cons_dropWhile (s : List α) :
    squeeze a (a :: s.dropWhile (· = a)) = squeeze a (a :: s) := by
  induction s with
  | nil => rfl
  | cons b s ih =>
    rw [List.dropWhile_cons]
    split
    · next hb => rw [ih, of_decide_eq_true hb, squeeze_cons_self]
    · rfl

theorem squeeze_rdropWhile_append (u s : List α) :
    squeeze a (u.rdropWhile (· = a) ++ a :: s) = squeeze a (u ++ a :: s) := by
  induction u using List.reverseRecOn with
  | nil => rfl
  | append_singleton u b ih =>
    by_cases hb : b = a
    · rw [List.rdropWhile_concat_pos _ _ _ (by simpa using hb), ih, hb, List.append_assoc,
        List.singleton_append, ← squeeze_append_squeeze u (a :: a :: s), squeeze_cons_self,
        squeeze_append_squeeze]
    · rw [List.rdropWhile_concat_neg _ _ _ (by simpa using hb)]

/-- Renaming what is squeezed, nothing else getting its name. -/
theorem squeeze_map {f : α → β} {b : β} (hf : ∀ x, f x = b ↔ x = a) (s : List α) :
    squeeze b (s.map f) = (squeeze a s).map f := by
  induction s with
  | nil => rfl
  | cons x s ih =>
    have hhead : (s.map f).head? = some b ↔ s.head? = some a := by
      rw [List.head?_map, Option.map_eq_some_iff]
      exact ⟨fun ⟨y, hy, hb⟩ => by rw [hy, (hf y).mp hb], fun h => ⟨a, h, (hf a).mpr rfl⟩⟩
    rw [List.map_cons, squeeze, squeeze, ih]
    simp only [hf, hhead]
    split
    · rfl
    · rfl

end Squeeze

theorem squeeze_replaceFrom (c : Char) (k : Nat) (s : List Char) :
    squeeze c (replaceFrom [c, c] [c] k s) = squeeze c (s.drop k) := by
  induction s generalizing k with
  | nil => cases k <;> rfl
  | cons d s ih =>
    cases k with
    | succ k => exact ih k
    | zero =>
      rw [replaceFrom, List.drop_zero]
      split
      · next h =>
        obtain ⟨t, ht⟩ := List.isPrefixOf_iff_prefix.mp h
        obtain ⟨rfl, rfl⟩ : c = d ∧ c :: t = s := by simpa using ht
        rw [List.singleton_append, squeeze_cons, ih]
        exact (squeeze_cons c t).symm.trans (squeeze_cons_self t).symm
      · rw [squeeze_cons, ih, List.drop_zero, ← squeeze_cons]

/-- Halving runs does not change what they squeeze to. -/
theorem squeeze_replace (c : Char) (s : List Char) :
    squeeze c (replace [c, c] [c] s) = squeeze c s :=
  squeeze_replaceFrom c 0 s

end Text
