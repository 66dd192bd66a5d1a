import Keywarden.Rows

/-!
# Paging by offset

A reader asks for a list page by page, and the list may have grown between two pages. If
new elements come in at the front only, none of those that were there at the start is
missed, provided that the reader goes on to a page that is not full. A list ordered from
the newest row to the oldest grows in this way.
-/
namespace Paging

variable {α β γ : Type}

/-- `l[offset : offset + limit]`. -/
def page (limit offset : Nat) (l : List α) : List α := (l.drop offset).take limit

theorem page_map (f : α → β) (limit offset : Nat) (l : List α) :
    (page limit offset l).map f = page limit offset (l.map f) := by
  rw [page, page, List.map_take, List.map_drop]

/-- Every element is on some page. -/
theorem exists_mem_page {limit : Nat} (hlimit : 0 < limit) {l : List α} {a : α} :
    (∃ offset, a ∈ page limit offset l) ↔ a ∈ l := by
  constructor
  · rintro ⟨offset, ha⟩
    exact List.mem_of_mem_drop (List.mem_of_mem_take ha)
  · intro ha
    obtain ⟨before, after, rfl⟩ := List.append_of_mem ha
    obtain ⟨n, rfl⟩ := Nat.exists_eq_succ_of_ne_zero hlimit.ne'
    exact ⟨before.length, by simp [page]⟩

/-! ## A list that grows at the front -/

section Growing

variable {limit n : Nat} {l : Nat → List α} {a : α}

/-- What the reader has not seen yet is still ahead. -/
theorem seen_or_ahead (hgrow : ∀ i < n, l i <:+ l (i + 1)) (ha : a ∈ l 0) :
    ∀ i ≤ n, (∃ j < i, a ∈ page limit (j * limit) (l j)) ∨ a ∈ (l i).drop (i * limit) := by
  intro i hi
  induction i with
  | zero => exact .inr (by simpa using ha)
  | succ i ih =>
    obtain ⟨j, hj, hseen⟩ | hahead := ih (by omega)
    · exact .inl ⟨j, by omega, hseen⟩
    · rw [← List.take_append_drop limit ((l i).drop (i * limit)), List.mem_append] at hahead
      obtain hseen | hahead := hahead
      · exact .inl ⟨i, by omega, hseen⟩
      · right
        obtain ⟨new, hnew⟩ := hgrow i (by omega)
        rw [List.drop_drop, ← Nat.succ_mul] at hahead
        rw [← hnew, List.drop_append]
        refine List.mem_append_right _ ?_
        have hle : (i + 1) * limit - new.length ≤ (i + 1) * limit := Nat.sub_le _ _
        exact List.drop_subset_drop_left _ hle hahead

/-- The last page is not full, so nothing is ahead of it. -/
theorem seen_of_last (hgrow : ∀ i < n, l i <:+ l (i + 1))
    (hlast : (page limit (n * limit) (l n)).length < limit) (ha : a ∈ l 0) :
    ∃ i ≤ n, a ∈ page limit (i * limit) (l i) := by
  obtain ⟨i, hi, hseen⟩ | hahead := seen_or_ahead hgrow ha n le_rfl
  · exact ⟨i, by omega, hseen⟩
  · refine ⟨n, le_rfl, ?_⟩
    rw [page, List.length_take] at hlast
    rwa [page, List.take_of_length_le (by omega)]

end Growing

/-! ## The newest first -/

section Newest

variable [LinearOrder β] {time : α → β}

/-- `ORDER BY time DESC`. -/
def newestFirst (time : α → β) (l : List α) : List α :=
  l.insertionSort fun a b => time b ≤ time a

theorem mem_newestFirst {l : List α} {a : α} : a ∈ newestFirst time l ↔ a ∈ l :=
  List.mem_insertionSort _

theorem newestFirst_map {f : α → γ} (time' : γ → β) (hf : ∀ a, time' (f a) = time a) (l : List α) :
    (newestFirst time l).map f = newestFirst time' (l.map f) := by
  refine List.map_insertionSort _ _ f l fun a _ b _ => ?_
  rw [hf, hf]

/-- Where no two elements have the same time, there is one such order. -/
theorem newestFirst_unique {l l' : List α} (hperm : l.Perm l')
    (hdistinct : ∀ a ∈ l, ∀ b ∈ l, time a = time b → a = b)
    (hsorted : l'.Pairwise fun a b => time b ≤ time a) : newestFirst time l = l' := by
  have htotal : Std.Total fun a b : α => time b ≤ time a := ⟨fun a b => le_total _ _⟩
  have htrans : IsTrans α fun a b => time b ≤ time a := ⟨fun a b c hab hbc => hbc.trans hab⟩
  refine List.Perm.eq_of_pairwise ?_ (List.pairwise_insertionSort _ l) hsorted
    ((List.perm_insertionSort _ l).trans hperm)
  intro a b ha hb hab hba
  exact hdistinct a (mem_newestFirst.mp ha) b (hperm.mem_iff.mpr hb) (le_antisymm hba hab)

theorem newestFirst_sorted (l : List α) :
    (newestFirst time l).Pairwise fun a b => time b ≤ time a := by
  have htotal : Std.Total fun a b : α => time b ≤ time a := ⟨fun a b => le_total _ _⟩
  have htrans : IsTrans α fun a b => time b ≤ time a := ⟨fun a b c hab hbc => hbc.trans hab⟩
  exact List.pairwise_insertionSort _ l

/-- Newer elements come in at the front. -/
theorem newestFirst_suffix [DecidableEq α] {l l' : List α} (hnodup : l.Nodup) (hnodup' : l'.Nodup)
    (hsub : l ⊆ l') (hdistinct : ∀ a ∈ l', ∀ b ∈ l', time a = time b → a = b)
    (hnew : ∀ a ∈ l', a ∉ l → ∀ b ∈ l, time b ≤ time a) :
    newestFirst time l <:+ newestFirst time l' := by
  let new := l'.filter fun a => a ∉ l
  refine ⟨newestFirst time new, (newestFirst_unique (l := l') ?_ hdistinct ?_).symm⟩
  · have hperm : (newestFirst time new ++ newestFirst time l).Perm (new ++ l) :=
      (List.perm_insertionSort _ _).append (List.perm_insertionSort _ _)
    refine (hperm.trans ?_).symm
    rw [List.perm_ext_iff_of_nodup ?_ hnodup']
    · intro a
      simp only [new, List.mem_append, List.mem_filter, decide_eq_true_eq]
      exact ⟨fun h => h.elim And.left fun ha => hsub ha,
        fun ha => (em (a ∈ l)).elim .inr fun hl => .inl ⟨ha, hl⟩⟩
    · refine List.nodup_append'.mpr ⟨hnodup'.filter _, hnodup, fun a ha hl => ?_⟩
      simp [new, hl] at ha
  · rw [List.pairwise_append]
    refine ⟨newestFirst_sorted _, newestFirst_sorted _, fun a ha b hb => ?_⟩
    have ha : a ∈ l' ∧ a ∉ l := by simpa [new] using mem_newestFirst.mp ha
    exact hnew a ha.1 ha.2 b (mem_newestFirst.mp hb)

end Newest

/-! ## A table that grows -/

section Tables

open Rows

variable {ρ κ : Type} [Keyed ρ κ] [LinearOrder β] {f : ρ → γ} {time : γ → β} {t t' t'' : Table ρ}

/-- Whatever is new is no older than what was there. -/
def Grows (f : ρ → γ) (time : γ → β) (t t' : Table ρ) : Prop :=
  Table.Extends f (fun s => ∀ r ∈ t, time (f r) ≤ time s) t t'

theorem Grows.refl (f : ρ → γ) (time : γ → β) (t : Table ρ) : Grows f time t t :=
  Table.Extends.refl _ _ _

theorem Grows.trans (h : Grows f time t t') (h' : Grows f time t' t'') : Grows f time t t'' := by
  refine Table.Extends.trans h (Table.Extends.mono h' fun s _ hs r hr => ?_)
  obtain ⟨r', hr', heq⟩ := h.kept r hr
  exact heq ▸ hs r' hr'

/-- What is shown of the rows that `p` selects. -/
def shown (f : ρ → γ) (time : γ → β) (p : γ → Bool) (t : Table ρ) : List γ :=
  newestFirst time ((t.toList.filter fun r => p (f r)).map f)

theorem mem_shown {p : γ → Bool} {s : γ} :
    s ∈ shown f time p t ↔ ∃ r ∈ t, f r = s ∧ p s = true := by
  simp only [shown, mem_newestFirst, List.mem_map, List.mem_filter, Table.mem_toList]
  constructor
  · rintro ⟨r, ⟨hr, hp⟩, rfl⟩
    exact ⟨r, hr, rfl, hp⟩
  · rintro ⟨r, hr, rfl, hp⟩
    exact ⟨r, ⟨hr, hp⟩, rfl⟩

theorem Grows.shown_suffix [DecidableEq γ] (h : Grows f time t t')
    (hkey : ∀ r s, f r = f s → (Keyed.key r : κ) = Keyed.key s)
    (hdistinct : ∀ r ∈ t', ∀ s ∈ t', time (f r) = time (f s) → f r = f s) (p : γ → Bool) :
    shown f time p t <:+ shown f time p t' := by
  have hnodup : ∀ t : Table ρ, ((t.toList.filter fun r => p (f r)).map f).Nodup := by
    intro t
    refine List.Nodup.map_on (fun r hr s hs heq => ?_) ((t.nodup.of_map _).filter _)
    exact t.eq_of_key (List.mem_filter.mp hr).1 (List.mem_filter.mp hs).1 (hkey r s heq)
  have hmem : ∀ {t : Table ρ} {s : γ}, s ∈ (t.toList.filter fun r => p (f r)).map f →
      ∃ r ∈ t, f r = s ∧ p s = true := by
    intro t s hs
    have hshown : s ∈ shown f time p t := mem_newestFirst.mpr hs
    exact mem_shown.mp hshown
  refine newestFirst_suffix (hnodup t) (hnodup t') ?_ ?_ ?_
  · intro s hs
    obtain ⟨r, hr, rfl, hp⟩ := hmem hs
    obtain ⟨r', hr', heq⟩ := h.kept r hr
    exact List.mem_map.mpr ⟨r', List.mem_filter.mpr ⟨hr', heq ▸ hp⟩, heq⟩
  · intro a ha b hb heq
    obtain ⟨r, hr, rfl, _⟩ := hmem ha
    obtain ⟨s, hs, rfl, _⟩ := hmem hb
    exact hdistinct r hr s hs heq
  · intro a ha hnot b hb
    obtain ⟨r', hr', rfl, hp⟩ := hmem ha
    obtain ⟨r, hr, rfl, _⟩ := hmem hb
    obtain ⟨o, ho, heq⟩ | hnew := h.origin r' hr'
    · exact absurd (List.mem_map.mpr ⟨o, List.mem_filter.mpr ⟨ho, heq ▸ hp⟩, heq⟩) hnot
    · exact hnew r hr

/-- A reader of pages, which are those of a table that grows, up to one that is not full:
whatever was there at the start is on one of them. -/
theorem read_all [DecidableEq γ] {t : Nat → Table ρ} {n limit : Nat} {p : γ → Bool}
    {answer : Nat → List ρ} (hgrows : ∀ i < n, Grows f time (t i) (t (i + 1)))
    (hkey : ∀ r s, f r = f s → (Keyed.key r : κ) = Keyed.key s)
    (hdistinct : ∀ r ∈ t n, ∀ s ∈ t n, time (f r) = time (f s) → r = s)
    (hpage : ∀ i ≤ n, (answer i).map f = page limit (i * limit) (shown f time p (t i)))
    (hlast : (answer n).length < limit) {r : ρ} (hr : r ∈ t 0) (hp : p (f r) = true) :
    ∃ i ≤ n, ∃ r' ∈ answer i, f r' = f r := by
  have hlater : ∀ k i, i + k ≤ n → Grows f time (t i) (t (i + k)) := by
    intro k
    induction k with
    | zero => exact fun i _ => Grows.refl _ _ _
    | succ k ih => exact fun i hi => (ih i (by omega)).trans (hgrows (i + k) (by omega))
  have hgrow : ∀ i < n, shown f time p (t i) <:+ shown f time p (t (i + 1)) := by
    intro i hi
    refine (hgrows i hi).shown_suffix hkey (fun a ha b hb heq => ?_) p
    have hend : Grows f time (t (i + 1)) (t n) := by
      have hlast := hlater (n - (i + 1)) (i + 1) (by omega)
      rwa [Nat.add_sub_cancel' (by omega)] at hlast
    obtain ⟨a', ha', ha⟩ := hend.kept a ha
    obtain ⟨b', hb', hb⟩ := hend.kept b hb
    rw [← ha, ← hb, hdistinct a' ha' b' hb' (by rw [ha, hb, heq])]
  obtain ⟨i, hi, hmem⟩ := seen_of_last hgrow (by rwa [← hpage n le_rfl, List.length_map])
    (mem_shown.mpr ⟨r, hr, rfl, hp⟩)
  rw [← hpage i hi, List.mem_map] at hmem
  exact ⟨i, hi, hmem⟩

end Tables

end Paging
