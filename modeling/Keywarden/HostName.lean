import Mathlib.Data.List.Basic
import Keywarden.Text

/-!
# Host names

Names of hosts: labels of letters, digits and hyphens with dots between them, and optionally
one dot behind them. A text is taken apart at its dots.
-/
namespace HostName

open Text

/-- A letter or a digit of ASCII, or a hyphen. -/
def character (c : Char) : Bool := c.isAlphanum || c = '-'

structure Label (l : List Char) : Prop where
  nonempty : 1 ≤ l.length
  short : l.length ≤ 63
  characters : ∀ c ∈ l, character c = true
  head : l.head? ≠ some '-'
  last : l.getLast? ≠ some '-'

/-- The text with these labels, with or without the final dot. -/
def textOf (labels : List (List Char)) (final : Bool) : List Char :=
  ['.'].intercalate labels ++ if final then ['.'] else []

structure Name (s : List Char) : Prop where
  nonempty : 1 ≤ s.length
  short : s.length ≤ 253
  labels : ∃ labels final, labels ≠ [] ∧ (∀ l ∈ labels, Label l) ∧ s = textOf labels final

theorem Label.ne_nil {l : List Char} (h : Label l) : l ≠ [] :=
  List.length_pos_iff.mp h.nonempty

theorem Label.not_mem_dot {l : List Char} (h : Label l) : '.' ∉ l :=
  fun hm => absurd (h.characters '.' hm) (by decide)

/-- A name is made of letters, digits, hyphens and dots. -/
theorem Name.mem {s : List Char} (h : Name s) {c : Char} (hc : c ∈ s) :
    character c = true ∨ c = '.' := by
  obtain ⟨labels, final, _, hlabels, rfl⟩ := h.labels
  obtain hc | hc := List.mem_append.mp hc
  · obtain rfl | ⟨l, hl, hc⟩ := mem_intercalate hc
    · exact .inr rfl
    · exact .inl ((hlabels l hl).characters c hc)
  · cases final with
    | false => cases hc
    | true => exact .inr (List.mem_singleton.mp hc)

theorem Name.not_isSpace {s : List Char} (h : Name s) : ∀ c ∈ s, isSpace c = false := by
  intro c hc
  obtain hc | rfl := h.mem hc
  · simp only [character, Bool.or_eq_true, decide_eq_true_eq] at hc
    obtain hc | rfl := hc
    · exact isSpace_of_printing (printing_of_isAlphanum hc)
    · decide
  · decide

/-! ## Taking a text apart -/

/-- The labels of a text, a final dot behind other labels taken away. -/
def labelsOf (s : List Char) : List (List Char) :=
  let labels := s.splitOn '.'
  if 1 < labels.length ∧ labels.getLast? = some [] then labels.dropLast else labels

theorem intercalate_concat_nil {labels : List (List Char)} (h : labels ≠ []) :
    ['.'].intercalate (labels ++ [[]]) = ['.'].intercalate labels ++ ['.'] := by
  induction labels with
  | nil => exact absurd rfl h
  | cons l labels ih =>
    cases labels with
    | nil => simp
    | cons m labels =>
      have hrest := ih (List.cons_ne_nil m labels)
      rw [List.cons_append, List.cons_append, List.intercalate_cons_cons, ← List.cons_append, hrest,
        List.intercalate_cons_cons]
      simp only [List.append_assoc]

theorem labelsOf_textOf {labels : List (List Char)} (hne : labels ≠ [])
    (h : ∀ l ∈ labels, l ≠ [] ∧ '.' ∉ l) (final : Bool) : labelsOf (textOf labels final) = labels := by
  cases final with
  | false =>
    have hsplit : (textOf labels false).splitOn '.' = labels := by
      rw [textOf, if_neg Bool.false_ne_true, List.append_nil]
      exact List.splitOn_intercalate '.' (fun l hl => (h l hl).2) hne
    rw [labelsOf, hsplit]
    refine if_neg fun hlast => (h [] ?_).1 rfl
    exact List.mem_of_getLast? hlast.2
  | true =>
    have hsplit : (textOf labels true).splitOn '.' = labels ++ [[]] := by
      rw [textOf, if_pos rfl, ← intercalate_concat_nil hne]
      refine List.splitOn_intercalate '.' (fun l hl => ?_) (by simp)
      obtain hl | hl := List.mem_append.mp hl
      · exact (h l hl).2
      · rw [List.mem_singleton.mp hl]
        exact List.not_mem_nil
    have hlen := List.length_pos_iff.mpr hne
    rw [labelsOf, hsplit, if_pos, List.dropLast_concat]
    refine ⟨?_, List.getLast?_concat ..⟩
    rw [List.length_append, List.length_singleton]
    omega

/-- A text is put together again from its labels. -/
theorem exists_textOf (s : List Char) : labelsOf s ≠ [] ∧ ∃ final, s = textOf (labelsOf s) final := by
  have hparts : ['.'].intercalate (s.splitOn '.') = s := List.intercalate_splitOn '.'
  unfold labelsOf
  simp only
  split
  · next hlast =>
    obtain ⟨hlen, hlast⟩ := hlast
    obtain ⟨labels, hlabels⟩ : ∃ labels, s.splitOn '.' = labels ++ [[]] :=
      ⟨_, (List.dropLast_append_getLast? [] hlast).symm⟩
    rw [hlabels] at hparts hlen ⊢
    rw [List.dropLast_concat]
    have hne : labels ≠ [] := by
      rintro rfl
      exact absurd hlen (by decide)
    exact ⟨hne, true, by rw [textOf, if_pos rfl, ← intercalate_concat_nil hne, hparts]⟩
  · refine ⟨?_, false, ?_⟩
    · rw [List.splitOn_eq_splitOnP]
      exact List.splitOnP_ne_nil _ _
    · rw [textOf, if_neg Bool.false_ne_true, List.append_nil, hparts]

end HostName
