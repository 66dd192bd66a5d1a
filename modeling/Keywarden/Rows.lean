import Mathlib.Data.List.Nodup
import Mathlib.Data.List.Basic
import Mathlib.Data.List.Sort

/-!
# Tables of rows with a primary key

A table is a list of rows no two of which share a key. The operations are the
statements an object-relational mapper issues: look a row up, write a row back,
update the rows a predicate selects, insert, insert-or-replace, delete. Each
operation comes with the membership lemma that says what it leaves behind; proofs
outside this file go by membership and never by the list underneath.
-/
namespace Rows

/-- The primary key of a row type. -/
class Keyed (ρ : Type) (κ : outParam Type) where
  key : ρ → κ

variable {ρ κ : Type} [Keyed ρ κ]

/-- Uniqueness of the key is a field, so no operation can leave a duplicate. -/
structure Table (ρ : Type) {κ : Type} [Keyed ρ κ] where
  rows : List ρ
  nodup : (rows.map Keyed.key).Nodup

namespace Table

instance : Membership ρ (Table ρ) := ⟨fun t r => r ∈ t.rows⟩

instance [DecidableEq ρ] (r : ρ) (t : Table ρ) : Decidable (r ∈ t) :=
  inferInstanceAs (Decidable (r ∈ t.rows))

theorem mem_def (t : Table ρ) (r : ρ) : r ∈ t ↔ r ∈ t.rows := Iff.rfl

def empty : Table ρ := ⟨[], by simp⟩

instance : Inhabited (Table ρ) := ⟨empty⟩

@[simp] theorem empty_rows : (empty : Table ρ).rows = [] := rfl
@[simp] theorem not_mem_empty (r : ρ) : r ∉ (empty : Table ρ) := by simp [mem_def]

/-- Two rows with one key are one row. -/
theorem eq_of_key (t : Table ρ) {r s : ρ} (hr : r ∈ t) (hs : s ∈ t)
    (h : Keyed.key r = Keyed.key s) : r = s :=
  List.inj_on_of_nodup_map t.nodup hr hs h

section Lookup

variable [DecidableEq κ]

def find (t : Table ρ) (k : κ) : Option ρ := t.rows.find? (fun r => decide (Keyed.key r = k))

theorem find_eq_some (t : Table ρ) (k : κ) (r : ρ) :
    t.find k = some r ↔ r ∈ t ∧ Keyed.key r = k := by
  constructor
  · intro h
    exact ⟨List.mem_of_find?_eq_some h, by simpa using List.find?_some h⟩
  · rintro ⟨hr, hk⟩
    cases h : t.find k with
    | none =>
      have hn := List.find?_eq_none.mp h r hr
      simp [hk] at hn
    | some s =>
      have hs : s ∈ t := List.mem_of_find?_eq_some h
      have hsk : Keyed.key s = k := by simpa using List.find?_some h
      rw [t.eq_of_key hs hr (hsk.trans hk.symm)]

theorem find_eq_none (t : Table ρ) (k : κ) :
    t.find k = none ↔ ∀ r ∈ t, Keyed.key r ≠ k := by
  simp [find, mem_def]

/-- A lookup depends on the rows with its key alone. -/
theorem find_congr {t t' : Table ρ} {k : κ} (h : ∀ r, Keyed.key r = k → (r ∈ t' ↔ r ∈ t)) :
    t'.find k = t.find k := by
  cases hf : t.find k with
  | none =>
    rw [find_eq_none]
    intro r hr hk
    exact (find_eq_none t k).mp hf r ((h r hk).mp hr) hk
  | some o =>
    obtain ⟨ho, hk⟩ := (find_eq_some t k o).mp hf
    rw [find_eq_some]
    exact ⟨(h o hk).mpr ho, hk⟩

end Lookup

/-- Every row, in some order. -/
def toList (t : Table ρ) : List ρ := t.rows

@[simp] theorem mem_toList (t : Table ρ) (r : ρ) : r ∈ t.toList ↔ r ∈ t := Iff.rfl

theorem toList_eq_nil {t : Table ρ} (h : ∀ r, r ∉ t) : t.toList = [] :=
  List.eq_nil_iff_forall_not_mem.mpr h

theorem toList_eq_singleton {t : Table ρ} {a : ρ} (h : ∀ r, r ∈ t ↔ r = a) : t.toList = [a] := by
  have hnodup : t.rows.Nodup := t.nodup.of_map _
  exact List.perm_singleton.mp ((List.perm_ext_iff_of_nodup hnodup (List.nodup_singleton a)).mpr
    fun r => by rw [List.mem_singleton]; exact h r)

/-- `SELECT … WHERE p`. -/
def filter (t : Table ρ) (p : ρ → Bool) : List ρ := t.rows.filter p

theorem mem_filter (t : Table ρ) (p : ρ → Bool) (r : ρ) :
    r ∈ t.filter p ↔ r ∈ t ∧ p r = true := by
  simp [filter, mem_def]

/-- `filter(p).exists()`. -/
def any (t : Table ρ) (p : ρ → Bool) : Bool := t.rows.any p

theorem any_iff (t : Table ρ) (p : ρ → Bool) : t.any p = true ↔ ∃ r ∈ t, p r = true := by
  simp [any, mem_def]

/-- An edit of a row that leaves its key alone. -/
structure Edit (ρ : Type) {κ : Type} [Keyed ρ κ] where
  apply : ρ → ρ
  key_apply : ∀ r, Keyed.key (apply r) = Keyed.key r

/-- `UPDATE … SET e WHERE p`. -/
def update (t : Table ρ) (p : ρ → Bool) (e : Edit ρ) : Table ρ where
  rows := t.rows.map fun r => if p r then e.apply r else r
  nodup := by
    have h : (t.rows.map fun r => if p r then e.apply r else r).map Keyed.key =
        t.rows.map Keyed.key := by
      rw [List.map_map]
      apply List.map_congr_left
      intro r _
      by_cases hp : p r <;> simp [hp, e.key_apply]
    rw [h]
    exact t.nodup

theorem mem_update (t : Table ρ) (p : ρ → Bool) (e : Edit ρ) (r : ρ) :
    r ∈ t.update p e ↔ ∃ o ∈ t, r = if p o then e.apply o else o := by
  simp only [mem_def, update, List.mem_map]
  constructor
  · rintro ⟨o, ho, h⟩; exact ⟨o, ho, h.symm⟩
  · rintro ⟨o, ho, h⟩; exact ⟨o, ho, h.symm⟩

/-- What the edit gives the rows it selects and the others have already, all rows have. -/
theorem forall_mem_update {t : Table ρ} {p : ρ → Bool} {e : Edit ρ} {q : ρ → Prop}
    (hedit : ∀ o, p o = true → q (e.apply o)) (hkeep : ∀ o, p o = false → q o) :
    ∀ r ∈ t.update p e, q r := by
  intro r hr
  obtain ⟨o, _, rfl⟩ := (mem_update t p e r).mp hr
  split
  · next hp => exact hedit o hp
  · next hp => exact hkeep o (by simpa using hp)

/-- An update does nothing exactly when it leaves the rows it selects as they are. -/
theorem update_eq_self_iff (t : Table ρ) (p : ρ → Bool) (e : Edit ρ) :
    t.update p e = t ↔ ∀ r ∈ t, p r = true → e.apply r = r := by
  constructor
  · intro h r hr hp
    have hmem : e.apply r ∈ t := by
      rw [← h, mem_update]
      exact ⟨r, hr, by rw [if_pos hp]⟩
    exact t.eq_of_key hmem hr (e.key_apply r)
  · intro h
    have hrows : t.rows.map (fun r => if p r then e.apply r else r) = t.rows := by
      calc t.rows.map (fun r => if p r then e.apply r else r)
        _ = t.rows.map id := List.map_congr_left fun r hr => by
          split
          · next hp => exact h r hr hp
          · rfl
        _ = t.rows := List.map_id _
    cases t
    simp only [update, mk.injEq]
    exact hrows

/-- An update that selects no row does nothing. -/
theorem update_of_none (t : Table ρ) {p : ρ → Bool} (e : Edit ρ) (h : ∀ r ∈ t, p r = false) :
    t.update p e = t :=
  (update_eq_self_iff t p e).mpr fun r hr hp => absurd ((h r hr).symm.trans hp) (by decide)

/-- An update of a column that a selection does not look at. -/
theorem filter_update (t : Table ρ) (p : ρ → Bool) (e : Edit ρ) {q : ρ → Bool}
    (hq : ∀ r, q (e.apply r) = q r) :
    (t.update p e).filter q = (t.filter q).map fun r => if p r then e.apply r else r := by
  rw [filter, filter, update, List.filter_map]
  congr 1
  refine List.filter_congr fun r _ => ?_
  by_cases hp : p r = true
  · simp only [Function.comp_apply, hp, if_true, hq]
  · simp only [Function.comp_apply, hp, Bool.false_eq_true, if_false]

/-- The selected rows after an update of all of them. -/
theorem filter_update_self (t : Table ρ) {p : ρ → Bool} (e : Edit ρ) (hp : ∀ r, p (e.apply r) = p r) :
    (t.update p e).filter p = (t.filter p).map e.apply := by
  rw [filter_update t p e hp]
  exact List.map_congr_left fun r hr => if_pos ((mem_filter t p r).mp hr).2

/-- A second update of the same rows that writes what the first has written. -/
theorem update_update (t : Table ρ) {p : ρ → Bool} {e e' : Edit ρ} (hp : ∀ r, p (e.apply r) = p r)
    (he : ∀ r, e'.apply (e.apply r) = e'.apply r) : (t.update p e).update p e' = t.update p e' := by
  simp only [update, mk.injEq, List.map_map]
  refine List.map_congr_left fun r _ => ?_
  by_cases h : p r = true
  · simp only [Function.comp_apply, h, if_true, hp, he]
  · simp only [Function.comp_apply, h, Bool.false_eq_true, if_false]

/-- A row is where it was if the update leaves a column alone and selects no row with the row's
value in it. -/
theorem mem_update_of_column {γ : Type} {t : Table ρ} {p : ρ → Bool} {e : Edit ρ} {f : ρ → γ}
    (hf : ∀ r, f (e.apply r) = f r) {r : ρ} (h : ∀ o ∈ t, f o = f r → p o = false) :
    r ∈ t.update p e ↔ r ∈ t := by
  rw [mem_update]
  constructor
  · rintro ⟨o, ho, rfl⟩
    by_cases hp : p o = true
    · rw [if_pos hp] at h
      rw [h o ho (hf o).symm] at hp
      cases hp
    · rwa [if_neg hp]
  · exact fun hr => ⟨r, hr, by rw [h r hr rfl, if_neg Bool.false_ne_true]⟩

section Writes

variable [DecidableEq κ]

/-- An update removes no row. -/
theorem isSome_find_update (t : Table ρ) (p : ρ → Bool) (e : Edit ρ) (k : κ) :
    ((t.update p e).find k).isSome = (t.find k).isSome := by
  rw [Bool.eq_iff_iff, Option.isSome_iff_exists, Option.isSome_iff_exists]
  simp only [find_eq_some, mem_update]
  constructor
  · rintro ⟨r, ⟨o, ho, rfl⟩, hk⟩
    refine ⟨o, ho, ?_⟩
    by_cases hp : p o = true
    · rw [if_pos hp, e.key_apply] at hk
      exact hk
    · rwa [if_neg hp] at hk
  · rintro ⟨o, ho, hk⟩
    refine ⟨_, ⟨o, ho, rfl⟩, ?_⟩
    split
    · rw [e.key_apply]
      exact hk
    · exact hk

theorem find_update (t : Table ρ) (p : ρ → Bool) (e : Edit ρ) (k : κ) :
    (t.update p e).find k = (t.find k).map fun r => if p r then e.apply r else r := by
  cases h : t.find k with
  | none =>
    have hnone := isSome_find_update t p e k
    rw [h] at hnone
    simpa using hnone
  | some o =>
    obtain ⟨ho, hk⟩ := (find_eq_some t k o).mp h
    rw [Option.map_some, find_eq_some, mem_update]
    refine ⟨⟨o, ho, rfl⟩, ?_⟩
    split
    · rw [e.key_apply]
      exact hk
    · exact hk

/-- A row that the update does not select is found as it was. -/
theorem find_update_of_not {t : Table ρ} {p : ρ → Bool} (e : Edit ρ) {k : κ}
    (h : ∀ r ∈ t.find k, p r = false) : (t.update p e).find k = t.find k := by
  rw [find_update]
  cases hfind : t.find k with
  | none => rfl
  | some r => rw [Option.map_some, h r hfind, if_neg Bool.false_ne_true]

/-- Write a row back over the one with its key; a row that is gone stays gone. -/
def save (t : Table ρ) (row : ρ) : Table ρ where
  rows := t.rows.map fun r => if Keyed.key r = Keyed.key row then row else r
  nodup := by
    have h : (t.rows.map fun r => if Keyed.key r = Keyed.key row then row else r).map
        Keyed.key = t.rows.map Keyed.key := by
      rw [List.map_map]
      apply List.map_congr_left
      intro r _
      by_cases hk : Keyed.key r = Keyed.key row <;> simp [hk]
    rw [h]
    exact t.nodup

theorem mem_save (t : Table ρ) (row r : ρ) :
    r ∈ t.save row ↔ (r = row ∧ ∃ o ∈ t, Keyed.key o = Keyed.key row) ∨
      (r ∈ t ∧ Keyed.key r ≠ Keyed.key row) := by
  simp only [mem_def, save, List.mem_map]
  constructor
  · rintro ⟨o, ho, h⟩
    by_cases hk : Keyed.key o = Keyed.key row
    · rw [if_pos hk] at h; exact .inl ⟨h.symm, o, ho, hk⟩
    · rw [if_neg hk] at h; subst h; exact .inr ⟨ho, hk⟩
  · rintro (⟨h, o, ho, hk⟩ | ⟨hr, hk⟩)
    · exact ⟨o, ho, by rw [if_pos hk, h]⟩
    · exact ⟨r, hr, by rw [if_neg hk]⟩

theorem find_save (t : Table ρ) (row : ρ) (k : κ) :
    (t.save row).find k =
      if Keyed.key row = k then (t.find k).map (fun _ => row) else t.find k := by
  by_cases hk : Keyed.key row = k
  · rw [if_pos hk]
    cases h : t.find k with
    | none =>
      rw [Option.map_none, find_eq_none]
      intro r hr
      obtain ⟨_, o, ho, hok⟩ | ⟨hr, _⟩ := (mem_save t row r).mp hr
      · exact absurd (hok.trans hk) ((find_eq_none t k).mp h o ho)
      · exact (find_eq_none t k).mp h r hr
    | some o =>
      obtain ⟨ho, hok⟩ := (find_eq_some t k o).mp h
      rw [Option.map_some, find_eq_some, mem_save]
      exact ⟨.inl ⟨rfl, o, ho, hok.trans hk.symm⟩, hk⟩
  · rw [if_neg hk]
    refine find_congr fun r hr => ?_
    rw [mem_save]
    constructor
    · rintro (⟨rfl, _⟩ | ⟨hmem, _⟩)
      · exact absurd hr hk
      · exact hmem
    · exact fun hmem => .inr ⟨hmem, by rw [hr]; exact Ne.symm hk⟩

/-- A row is written back with its value in a column: rows with another one are where they were. -/
theorem mem_save_of_column {γ : Type} {t : Table ρ} {row o r : ρ} (ho : o ∈ t) {f : ρ → γ}
    (hk : Keyed.key row = Keyed.key o) (hf : f row = f o) (hne : f r ≠ f o) :
    r ∈ t.save row ↔ r ∈ t := by
  rw [mem_save]
  constructor
  · rintro (⟨rfl, _⟩ | ⟨hr, _⟩)
    · exact absurd hf hne
    · exact hr
  · intro hr
    refine .inr ⟨hr, fun hkey => hne ?_⟩
    rw [t.eq_of_key hr ho (hkey.trans hk)]

/-- Writing a row back as it is does nothing. -/
theorem save_of_mem (t : Table ρ) {row : ρ} (h : row ∈ t) : t.save row = t := by
  have hrows : t.rows.map (fun r => if Keyed.key r = Keyed.key row then row else r) = t.rows := by
    calc t.rows.map (fun r => if Keyed.key r = Keyed.key row then row else r)
      _ = t.rows.map id := List.map_congr_left fun r hr => by
        split
        · next hk => exact t.eq_of_key h hr hk.symm
        · rfl
      _ = t.rows := List.map_id _
  cases t
  simp only [save, mk.injEq]
  exact hrows

/-- So does writing one back that is gone. -/
theorem save_of_none (t : Table ρ) {row : ρ} (h : ∀ r ∈ t, Keyed.key r ≠ Keyed.key row) :
    t.save row = t := by
  have hrows : t.rows.map (fun r => if Keyed.key r = Keyed.key row then row else r) = t.rows := by
    calc t.rows.map (fun r => if Keyed.key r = Keyed.key row then row else r)
      _ = t.rows.map id := List.map_congr_left fun r hr => if_neg (h r hr)
      _ = t.rows := List.map_id _
  cases t
  simp only [save, mk.injEq]
  exact hrows

/-- An edit of a row that is then written back does not show. -/
theorem save_update (t : Table ρ) (row : ρ) (e : Edit ρ) :
    (t.update (fun r => decide (Keyed.key r = Keyed.key row)) e).save row = t.save row := by
  simp only [save, update, mk.injEq, List.map_map]
  refine List.map_congr_left fun r _ => ?_
  by_cases hk : Keyed.key r = Keyed.key row
  · simp only [Function.comp_apply, hk, decide_true, if_true, e.key_apply]
  · simp only [Function.comp_apply, hk, decide_false, Bool.false_eq_true, if_false]

/-- An edit of one row writes the edited row back. -/
theorem update_eq_save (t : Table ρ) {row : ρ} (h : row ∈ t) (e : Edit ρ) :
    t.update (fun r => decide (Keyed.key r = Keyed.key row)) e = t.save (e.apply row) := by
  simp only [save, update, mk.injEq, e.key_apply]
  refine List.map_congr_left fun r hr => ?_
  by_cases hk : Keyed.key r = Keyed.key row
  · simp only [decide_true, if_true, t.eq_of_key hr h hk]
  · simp only [hk, decide_false, Bool.false_eq_true, if_false]

/-- `INSERT`: nothing is inserted over a key already taken. -/
def insert (t : Table ρ) (row : ρ) : Table ρ :=
  if h : ∃ o ∈ t.rows, Keyed.key o = Keyed.key row then t
  else ⟨t.rows ++ [row], by
    rw [List.map_append, List.nodup_append]
    refine ⟨t.nodup, by simp, ?_⟩
    intro a ha b hb
    obtain ⟨o, ho, rfl⟩ := List.mem_map.mp ha
    simp only [List.map_cons, List.map_nil, List.mem_singleton] at hb
    subst hb
    exact fun hk => h ⟨o, ho, hk⟩⟩

theorem mem_insert (t : Table ρ) (row r : ρ) (h : ∀ o ∈ t, Keyed.key o ≠ Keyed.key row) :
    r ∈ t.insert row ↔ r ∈ t ∨ r = row := by
  have hn : ¬ ∃ o ∈ t.rows, Keyed.key o = Keyed.key row := by
    rintro ⟨o, ho, hk⟩; exact h o ho hk
  simp [mem_def, insert, dif_neg hn]

/-- `update_or_create`: the row replaces the one with its key or is added. -/
def upsert (t : Table ρ) (row : ρ) : Table ρ := (t.save row).insert row

theorem mem_upsert (t : Table ρ) (row r : ρ) :
    r ∈ t.upsert row ↔ r = row ∨ (r ∈ t ∧ Keyed.key r ≠ Keyed.key row) := by
  by_cases h : ∃ o ∈ t, Keyed.key o = Keyed.key row
  · have hs : t.upsert row = t.save row := by
      unfold upsert insert
      rw [dif_pos]
      obtain ⟨o, ho, hk⟩ := h
      exact ⟨row, (mem_save t row row).mpr (.inl ⟨rfl, o, ho, hk⟩), rfl⟩
    rw [hs, mem_save]
    simp [h]
  · have hs : ∀ o ∈ t.save row, Keyed.key o ≠ Keyed.key row := by
      intro o ho
      obtain ⟨_, he⟩ | ⟨_, hk⟩ := (mem_save t row o).mp ho
      · exact absurd he h
      · exact hk
    rw [upsert, mem_insert _ _ _ hs, mem_save]
    simp only [h, and_false, false_or]
    exact or_comm

theorem upsert_of_mem (t : Table ρ) {row : ρ} (h : row ∈ t) : t.upsert row = t := by
  rw [upsert, t.save_of_mem h, insert, dif_pos ⟨row, h, rfl⟩]

theorem find_upsert (t : Table ρ) (row : ρ) (k : κ) :
    (t.upsert row).find k = if Keyed.key row = k then some row else t.find k := by
  by_cases hk : Keyed.key row = k
  · rw [if_pos hk, find_eq_some, mem_upsert]
    exact ⟨.inl rfl, hk⟩
  · rw [if_neg hk]
    refine find_congr fun r hr => ?_
    rw [mem_upsert]
    constructor
    · rintro (rfl | ⟨hmem, _⟩)
      · exact absurd hr hk
      · exact hmem
    · exact fun hmem => .inr ⟨hmem, by rw [hr]; exact Ne.symm hk⟩

/-- `DELETE … WHERE key = k`. -/
def delete (t : Table ρ) (k : κ) : Table ρ where
  rows := t.rows.filter fun r => decide (Keyed.key r ≠ k)
  nodup := t.nodup.sublist (List.filter_sublist.map _)

theorem mem_delete (t : Table ρ) (k : κ) (r : ρ) :
    r ∈ t.delete k ↔ r ∈ t ∧ Keyed.key r ≠ k := by
  simp [mem_def, delete]

end Writes

section Serial

variable {ρ : Type} [Keyed ρ Nat]

/-- The next value of an automatic key: above every key in use. -/
def fresh (t : Table ρ) : Nat := (t.rows.map Keyed.key).foldr max 0 + 1

theorem key_lt_fresh (t : Table ρ) {r : ρ} (h : r ∈ t) : Keyed.key r < t.fresh := by
  have hle : ∀ (l : List Nat) (n : Nat), n ∈ l → n ≤ l.foldr max 0 := by
    intro l
    induction l with
    | nil => simp
    | cons m l ih =>
      intro n hn
      obtain rfl | hn := List.mem_cons.mp hn
      · exact Nat.le_max_left _ _
      · exact Nat.le_trans (ih n hn) (Nat.le_max_right _ _)
  exact Nat.lt_succ_of_le (hle _ _ (List.mem_map_of_mem h))

/-- `INSERT … RETURNING id`: the row is built around the key it is given. -/
def create (t : Table ρ) (mk : Nat → ρ) : Table ρ := t.insert (mk t.fresh)

theorem mem_create (t : Table ρ) (mk : Nat → ρ) (hk : ∀ n, Keyed.key (mk n) = n) (r : ρ) :
    r ∈ t.create mk ↔ r ∈ t ∨ r = mk t.fresh := by
  apply mem_insert
  intro o ho h
  have hlt := key_lt_fresh t ho
  rw [h, hk] at hlt
  exact Nat.lt_irrefl _ hlt

/-- A row with the next key is inserted. -/
theorem upsert_fresh (t : Table ρ) (mk : Nat → ρ) (hk : ∀ n, Keyed.key (mk n) = n) :
    t.upsert (mk t.fresh) = t.create mk := by
  rw [upsert, create, save_of_none t fun r hr => ?_]
  rw [hk]
  exact Nat.ne_of_lt (key_lt_fresh t hr)

theorem find_create_of_some (t : Table ρ) (mk : Nat → ρ) (hk : ∀ n, Keyed.key (mk n) = n) {k : Nat}
    {o : ρ} (h : t.find k = some o) : (t.create mk).find k = some o := by
  rw [find_eq_some] at h ⊢
  exact ⟨(mem_create t mk hk o).mpr (.inl h.1), h.2⟩

end Serial

/-! ## What stays of the rows -/

section History

variable {γ : Type} {f : ρ → γ} {new : γ → Prop} {t t' : Table ρ}

/-- Every row is still there, as far as `f` tells, and what is not an old row is `new`. -/
structure Extends (f : ρ → γ) (new : γ → Prop) (t t' : Table ρ) : Prop where
  kept : ∀ r ∈ t, ∃ r' ∈ t', f r' = f r
  origin : ∀ r' ∈ t', (∃ r ∈ t, f r = f r') ∨ new (f r')

theorem Extends.refl (f : ρ → γ) (new : γ → Prop) (t : Table ρ) : Extends f new t t :=
  ⟨fun r hr => ⟨r, hr, rfl⟩, fun r hr => .inl ⟨r, hr, rfl⟩⟩

theorem Extends.trans {t'' : Table ρ} (h : Extends f new t t') (h' : Extends f new t' t'') :
    Extends f new t t'' := by
  constructor
  · intro r hr
    obtain ⟨r', hr', heq⟩ := h.kept r hr
    obtain ⟨r'', hr'', heq'⟩ := h'.kept r' hr'
    exact ⟨r'', hr'', heq'.trans heq⟩
  · intro r'' hr''
    obtain ⟨r', hr', heq'⟩ | hnew := h'.origin r'' hr''
    · obtain ⟨r, hr, heq⟩ | hnew := h.origin r' hr'
      · exact .inl ⟨r, hr, heq.trans heq'⟩
      · exact .inr (heq' ▸ hnew)
    · exact .inr hnew

theorem Extends.mono {new' : γ → Prop} (h : Extends f new t t')
    (hnew : ∀ r' ∈ t', new (f r') → new' (f r')) : Extends f new' t t' :=
  ⟨h.kept, fun r' hr' => (h.origin r' hr').imp id (hnew r' hr')⟩

/-- No row is new. -/
theorem Extends.exists_iff (h : Extends f (fun _ => False) t t') (a : γ) :
    (∃ r ∈ t', f r = a) ↔ ∃ r ∈ t, f r = a := by
  constructor
  · rintro ⟨r', hr', rfl⟩
    exact (h.origin r' hr').resolve_right id
  · rintro ⟨r, hr, rfl⟩
    exact h.kept r hr

theorem extends_update (t : Table ρ) (p : ρ → Bool) {e : Edit ρ} (hf : ∀ r, f (e.apply r) = f r) :
    Extends f new t (t.update p e) := by
  have hrow : ∀ r, f (if p r = true then e.apply r else r) = f r := by
    intro r
    split
    · exact hf r
    · rfl
  refine ⟨fun r hr => ⟨_, (mem_update _ _ _ _).mpr ⟨r, hr, rfl⟩, hrow r⟩, fun r' hr' => .inl ?_⟩
  obtain ⟨r, hr, rfl⟩ := (mem_update _ _ _ _).mp hr'
  exact ⟨r, hr, (hrow r).symm⟩

theorem extends_save [DecidableEq κ] {row o : ρ} (ho : o ∈ t) (hk : Keyed.key row = Keyed.key o)
    (hf : f row = f o) : Extends f new t (t.save row) := by
  constructor
  · intro r hr
    by_cases hkey : Keyed.key r = Keyed.key row
    · have hro : r = o := t.eq_of_key hr ho (hkey.trans hk)
      exact ⟨row, (mem_save _ _ _).mpr (.inl ⟨rfl, o, ho, hk.symm⟩), hro ▸ hf⟩
    · exact ⟨r, (mem_save _ _ _).mpr (.inr ⟨hr, hkey⟩), rfl⟩
  · intro r hr
    obtain ⟨rfl, _⟩ | ⟨hr, _⟩ := (mem_save _ _ _).mp hr
    · exact .inl ⟨o, ho, hf.symm⟩
    · exact .inl ⟨r, hr, rfl⟩

end History

theorem extends_create {ρ γ : Type} [Keyed ρ Nat] {f : ρ → γ} {new : γ → Prop} {t : Table ρ}
    {mk : Nat → ρ} (hk : ∀ n, Keyed.key (mk n) = n) (hnew : new (f (mk t.fresh))) :
    Extends f new t (t.create mk) := by
  constructor
  · exact fun r hr => ⟨r, (mem_create _ _ hk _).mpr (.inl hr), rfl⟩
  · intro r hr
    obtain hr | rfl := (mem_create _ _ hk _).mp hr
    · exact .inl ⟨r, hr, rfl⟩
    · exact .inr hnew

end Table

/-! ## The first row of an ordered selection -/

section First

variable {α : Type} {r : α → α → Prop} [DecidableRel r] {l : List α} {a : α}

theorem eq_nil_of_first (h : (l.insertionSort r).head? = none) : l = [] := by
  have hperm := List.perm_insertionSort r l
  rw [List.head?_eq_none_iff.mp h] at hperm
  exact hperm.symm.eq_nil

theorem mem_of_first (h : (l.insertionSort r).head? = some a) : a ∈ l :=
  (List.mem_insertionSort r).mp (List.mem_of_mem_head? (Option.mem_def.mpr h))

/-- No other row comes before the first. -/
theorem rel_of_first [Std.Total r] [IsTrans α r] (h : (l.insertionSort r).head? = some a) :
    ∀ b ∈ l, b ≠ a → r a b := by
  intro b hb hne
  have hsorted := List.pairwise_insertionSort r l
  obtain ⟨rest, hrest⟩ := List.head?_eq_some_iff.mp h
  have hmem := (List.mem_insertionSort r).mpr hb
  rw [hrest, List.pairwise_cons] at hsorted
  rw [hrest] at hmem
  exact hsorted.1 b ((List.mem_cons.mp hmem).resolve_left hne)

/-- The only row that is selected is the first. -/
theorem first_of_forall_eq (ha : a ∈ l) (h : ∀ b ∈ l, b = a) :
    (l.insertionSort r).head? = some a := by
  cases hfirst : (l.insertionSort r).head? with
  | none =>
    rw [eq_nil_of_first hfirst] at ha
    cases ha
  | some b => rw [h b (mem_of_first hfirst)]

end First

end Rows
