import Mathlib.Data.List.Infix

/-!
# Looking for a text in a text

The place where a pattern is first found, and how looking in a text that is put together
of parts comes down to looking in the parts: the pattern has no separator in it, or it ends
or starts with the one.
-/
namespace Search

variable {α : Type}

/-! ## Texts with a separator -/

section
variable {c : α} {pat w x y : List α}

theorem prefix_eq_nil {l : List α} (h : l <+: c :: y) (hc : c ∉ l) : l = [] := by
  cases l with
  | nil => rfl
  | cons d l =>
    rw [List.cons_prefix_cons] at h
    exact absurd (h.1 ▸ List.mem_cons_self) hc

theorem suffix_eq_nil {l : List α} (h : l <:+ x ++ [c]) (hc : c ∉ l) : l = [] := by
  have hrev : l.reverse <+: c :: x.reverse := by
    have hr := List.reverse_prefix.mpr h
    rwa [List.reverse_append, List.reverse_singleton, List.singleton_append] at hr
  exact List.reverse_eq_nil_iff.mp (prefix_eq_nil hrev fun hm => hc (List.mem_reverse.mp hm))

theorem infix_append_cons (h : c ∉ pat) : pat <:+: x ++ c :: y ↔ pat <:+: x ∨ pat <:+: y := by
  constructor
  · intro hi
    obtain hi | hi | ⟨l₁, l₂, rfl, h₁, h₂⟩ := List.infix_append_iff.mp hi
    · exact .inl hi
    · obtain hi | hi := List.infix_cons_iff.mp hi
      · rw [prefix_eq_nil hi h]
        exact .inl List.nil_infix
      · exact .inr hi
    · rw [prefix_eq_nil h₂ fun hc => h (List.mem_append_right _ hc), List.append_nil]
      exact .inl h₁.isInfix
  · rintro (hi | hi)
    · exact List.infix_append_of_infix_left hi
    · exact List.infix_append_of_infix_right (List.infix_cons hi)

/-- A pattern that ends with the separator ends at one. -/
theorem infix_append_end (h : c ∉ w) :
    w ++ [c] <:+: x ++ [c] ++ y ↔ w ++ [c] <:+: x ++ [c] ∨ w ++ [c] <:+: y := by
  constructor
  · intro hi
    obtain hi | hi | ⟨l₁, l₂, heq, h₁, h₂⟩ := List.infix_append_iff.mp hi
    · exact .inl hi
    · exact .inr hi
    · obtain rfl | ⟨t, d, rfl⟩ := l₂.eq_nil_or_concat
      · rw [heq, List.append_nil]
        exact .inl h₁.isInfix
      · have hw : w = l₁ ++ t := by
          rw [List.concat_eq_append, ← List.append_assoc] at heq
          exact (List.append_inj' heq rfl).1
        have hl : l₁ = [] :=
          suffix_eq_nil h₁ fun hc => h (hw ▸ List.mem_append_left _ hc)
        rw [heq, hl, List.nil_append]
        exact .inr h₂.isInfix
  · rintro (hi | hi)
    · exact List.infix_append_of_infix_left hi
    · exact List.infix_append_of_infix_right hi

/-- A pattern that starts with the separator starts at one. -/
theorem infix_append_start (h : c ∉ w) :
    c :: w <:+: x ++ c :: y ↔ c :: w <:+: x ∨ c :: w <:+: c :: y := by
  have hend := infix_append_end (x := y.reverse) (y := x.reverse)
    (fun hm => h (List.mem_reverse.mp hm) : c ∉ w.reverse)
  rw [← List.reverse_cons, ← List.reverse_cons, ← List.reverse_append, List.reverse_infix,
    List.reverse_infix, List.reverse_infix] at hend
  rw [hend, Or.comm]

end

/-! ## The first place -/

theorem not_infix_dropLast {pat : List α} (h : pat ≠ []) : ¬ pat <:+: pat.dropLast := by
  intro hi
  have hle := hi.length_le
  have hpos := List.length_pos_iff.mpr h
  rw [List.length_dropLast] at hle
  omega

theorem prefix_append_dropLast (x pat y : List α) : x ++ pat.dropLast <+: x ++ pat ++ y := by
  rw [List.append_assoc, List.prefix_append_right_inj]
  exact (List.dropLast_prefix pat).trans (List.prefix_append pat y)

variable [DecidableEq α]

/-- What is before the first place where the pattern is found, and what is after it. -/
def cut (pat : List α) : List α → Option (List α × List α)
  | [] => if pat = [] then some ([], []) else none
  | c :: s =>
    if pat.isPrefixOf (c :: s) then some ([], (c :: s).drop pat.length)
    else (cut pat s).map fun (x, y) => (c :: x, y)

theorem cut_eq_none_iff {pat s : List α} : cut pat s = none ↔ ¬ pat <:+: s := by
  induction s with
  | nil =>
    rw [cut, List.infix_nil]
    split
    · next h => simp [h]
    · next h => simp [h]
  | cons c s ih =>
    rw [cut, List.infix_cons_iff, ← List.isPrefixOf_iff_prefix]
    split
    · next h => simp [h]
    · next h => simp [h, ih]

theorem cut_append {pat x : List α} (h : ¬ pat <:+: x ++ pat.dropLast) (y : List α) :
    cut pat (x ++ pat ++ y) = some (x, y) := by
  induction x with
  | nil =>
    obtain ⟨c, pat, rfl⟩ : ∃ c t, pat = c :: t := by
      cases pat with
      | nil => exact absurd List.nil_infix h
      | cons c t => exact ⟨c, t, rfl⟩
    have hpre : (c :: pat).isPrefixOf (c :: (pat ++ y)) = true :=
      List.isPrefixOf_iff_prefix.mpr (List.prefix_append (c :: pat) y)
    rw [List.nil_append, List.cons_append, cut, if_pos hpre, ← List.cons_append, List.drop_left]
  | cons c x ih =>
    have hx : ¬ pat <:+: x ++ pat.dropLast := fun hi => h (List.infix_cons hi)
    have hpre : ¬ pat <+: c :: (x ++ pat ++ y) := by
      intro hp
      refine h (List.IsPrefix.isInfix ?_)
      refine List.prefix_of_prefix_length_le hp (prefix_append_dropLast (c :: x) pat y) ?_
      rw [List.length_append, List.length_dropLast, List.length_cons]
      omega
    rw [List.cons_append, List.cons_append, cut, if_neg fun hp => hpre (List.isPrefixOf_iff_prefix.mp hp),
      ih hx, Option.map_some]

theorem cut_eq_some_iff {pat s x y : List α} (hpat : pat ≠ []) :
    cut pat s = some (x, y) ↔ s = x ++ pat ++ y ∧ ¬ pat <:+: x ++ pat.dropLast := by
  constructor
  · intro h
    induction s generalizing x with
    | nil =>
      rw [cut, if_neg hpat] at h
      cases h
    | cons c s ih =>
      rw [cut] at h
      split at h
      · next hp =>
        cases h
        obtain ⟨t, ht⟩ := List.isPrefixOf_iff_prefix.mp hp
        rw [← ht, List.drop_left]
        exact ⟨rfl, not_infix_dropLast hpat⟩
      · next hp =>
        obtain ⟨⟨x', y'⟩, hcut, heq⟩ := Option.map_eq_some_iff.mp h
        cases heq
        obtain ⟨rfl, hx⟩ := ih hcut
        refine ⟨rfl, ?_⟩
        rw [List.cons_append, List.infix_cons_iff, not_or]
        refine ⟨fun hpre => hp (List.isPrefixOf_iff_prefix.mpr (hpre.trans ?_)), hx⟩
        rw [List.cons_prefix_cons]
        exact ⟨rfl, prefix_append_dropLast x' pat y⟩
  · rintro ⟨rfl, h⟩
    exact cut_append h y

end Search
