import Mathlib.Data.List.Basic
import Mathlib.Data.List.Infix

/-!
# Append-only logs and their readers

A log gives every record that arrives the next position and takes none back. A reader
stands at a position and moves from one wanted entry to the next. What it has read is a
prefix of all the wanted entries from where it started, however the log grows meanwhile.
-/
namespace Journal

variable {α : Type}

structure Entry (α : Type) where
  position : Nat
  record : α
  deriving DecidableEq, Repr

/-- The entries in the order of their positions, all of them below `next`. -/
structure Log (α : Type) where
  entries : List (Entry α)
  next : Nat
  ordered : entries.Pairwise fun a b => a.position < b.position
  bounded : ∀ e ∈ entries, e.position < next

namespace Log

def empty : Log α := ⟨[], 0, List.Pairwise.nil, by simp⟩

def append (l : Log α) (r : α) : Log α where
  entries := l.entries ++ [⟨l.next, r⟩]
  next := l.next + 1
  ordered := by
    rw [List.pairwise_append]
    refine ⟨l.ordered, List.pairwise_singleton _ _, ?_⟩
    intro e he f hf
    rw [List.mem_singleton.mp hf]
    exact l.bounded e he
  bounded := by
    intro e he
    obtain he | he := List.mem_append.mp he
    · exact Nat.lt_succ_of_lt (l.bounded e he)
    · rw [List.mem_singleton.mp he]
      exact Nat.lt_succ_self _

def appendAll (l : Log α) (rs : List α) : Log α := rs.foldl append l

@[simp] theorem appendAll_nil (l : Log α) : l.appendAll [] = l := rfl
@[simp] theorem appendAll_cons (l : Log α) (r : α) (rs : List α) :
    l.appendAll (r :: rs) = (l.append r).appendAll rs := rfl

/-- `l'` is `l` with more entries behind it. -/
def Extends (l l' : Log α) : Prop :=
  ∃ es, l'.entries = l.entries ++ es ∧ ∀ e ∈ es, l.next ≤ e.position

theorem Extends.refl (l : Log α) : l.Extends l := ⟨[], by simp, by simp⟩

theorem Extends.append {l l' : Log α} (h : l.Extends l') (hn : l.next ≤ l'.next) (r : α) :
    l.Extends (l'.append r) := by
  obtain ⟨es, he, hb⟩ := h
  refine ⟨es ++ [⟨l'.next, r⟩], by simp [Log.append, he], ?_⟩
  intro e hm
  obtain hm | hm := List.mem_append.mp hm
  · exact hb e hm
  · rw [List.mem_singleton.mp hm]
    exact hn

theorem next_le_appendAll (l : Log α) (rs : List α) : l.next ≤ (l.appendAll rs).next := by
  induction rs generalizing l with
  | nil => exact Nat.le_refl _
  | cons r rs ih => exact Nat.le_trans (Nat.le_succ _) (ih (l.append r))

theorem extends_appendAll (l : Log α) (rs : List α) : l.Extends (l.appendAll rs) := by
  induction rs using List.reverseRecOn with
  | nil => exact Extends.refl l
  | append_singleton rs r ih =>
    rw [appendAll, List.foldl_append]
    exact ih.append (next_le_appendAll l rs) r

theorem Extends.mem {l l' : Log α} (h : l.Extends l') {e : Entry α} (he : e ∈ l.entries) :
    e ∈ l'.entries := by
  obtain ⟨es, hl, _⟩ := h
  rw [hl]
  exact List.mem_append_left _ he

/-- What has arrived since stands behind everything that was there. -/
theorem Extends.mem_of_lt {l l' : Log α} (h : l.Extends l') {e : Entry α} (he : e ∈ l'.entries)
    (hlt : e.position < l.next) : e ∈ l.entries := by
  obtain ⟨es, hl, hb⟩ := h
  rw [hl] at he
  obtain he | he := List.mem_append.mp he
  · exact he
  · exact absurd (hb e he) (Nat.not_le_of_lt hlt)

/-- An entry is its position. -/
theorem eq_of_position (l : Log α) {e f : Entry α} (he : e ∈ l.entries) (hf : f ∈ l.entries)
    (h : e.position = f.position) : e = f := by
  by_contra hne
  obtain hlt | hlt := List.Pairwise.forall_of_forall_of_flip
    (R := fun a b : Entry α => a ≠ b → a.position < b.position ∨ b.position < a.position)
    (fun a _ hn => absurd rfl hn) (l.ordered.imp fun h _ => .inl h)
    (l.ordered.imp fun h _ => .inr h) he hf hne
  · omega
  · omega

/-- An entry of the longer log was there or has just arrived. -/
theorem mem_appendAll {l : Log α} {rs : List α} {e : Entry α} (h : e ∈ (l.appendAll rs).entries) :
    e ∈ l.entries ∨ e.record ∈ rs ∧ l.next ≤ e.position := by
  induction rs generalizing l with
  | nil => exact .inl h
  | cons r rs ih =>
    obtain h | ⟨hr, hp⟩ := ih h
    · obtain h | h := List.mem_append.mp h
      · exact .inl h
      · rw [List.mem_singleton.mp h]
        exact .inr ⟨List.mem_cons_self, Nat.le_refl _⟩
    · exact .inr ⟨List.mem_cons_of_mem _ hr, Nat.le_of_succ_le hp⟩

/-- Everything that arrives is in the log from then on. -/
theorem exists_mem_appendAll {l : Log α} {rs : List α} {r : α} (h : r ∈ rs) :
    ∃ e ∈ (l.appendAll rs).entries, e.record = r ∧ l.next ≤ e.position := by
  induction rs generalizing l with
  | nil => cases h
  | cons r' rs ih =>
    obtain rfl | h := List.mem_cons.mp h
    · refine ⟨⟨l.next, r⟩, ?_, rfl, Nat.le_refl _⟩
      exact (extends_appendAll (l.append r) rs).mem (List.mem_append_right _ (List.mem_singleton_self _))
    · obtain ⟨e, he, hr, hp⟩ := ih (l := l.append r') h
      exact ⟨e, he, hr, Nat.le_of_succ_le hp⟩

section Reader

variable (wanted : α → Bool)

/-- What a reader at `p` still has before it. -/
def due (p : Nat) (e : Entry α) : Bool := decide (p ≤ e.position) && wanted e.record

/-- The wanted entries from a position on. -/
def wantedFrom (l : Log α) (p : Nat) : List (Entry α) := l.entries.filter (due wanted p)

/-- The entry a reader at `p` moves to. -/
def firstFrom (l : Log α) (p : Nat) : Option (Entry α) := l.entries.find? (due wanted p)

variable {wanted}

@[simp] theorem due_iff {p : Nat} {e : Entry α} :
    due wanted p e = true ↔ p ≤ e.position ∧ wanted e.record = true := by
  simp [due]

@[simp] theorem mem_wantedFrom {l : Log α} {p : Nat} {e : Entry α} :
    e ∈ l.wantedFrom wanted p ↔ e ∈ l.entries ∧ p ≤ e.position ∧ wanted e.record = true := by
  simp [wantedFrom]

theorem wantedFrom_of_none {l : Log α} {p : Nat} (h : l.firstFrom wanted p = none) :
    l.wantedFrom wanted p = [] := by
  rw [wantedFrom, List.filter_eq_nil_iff]
  exact List.find?_eq_none.mp h

/-- Behind the end of the log there is nothing. -/
theorem firstFrom_next (l : Log α) : l.firstFrom wanted l.next = none := by
  rw [firstFrom, List.find?_eq_none]
  intro e he hdue
  have hlt := l.bounded e he
  have hle := (due_iff.mp hdue).1
  omega

theorem filter_of_find {es : List (Entry α)} {p : Nat} {e : Entry α}
    (hord : es.Pairwise fun a b => a.position < b.position)
    (h : es.find? (due wanted p) = some e) :
    es.filter (due wanted p) = e :: es.filter (due wanted (e.position + 1)) := by
  induction es with
  | nil => cases h
  | cons x xs ih =>
    obtain ⟨hx, hxs⟩ := List.pairwise_cons.mp hord
    by_cases hp : due wanted p x = true
    · rw [List.find?_cons_of_pos hp] at h
      cases h
      have hlater : xs.filter (due wanted p) = xs.filter (due wanted (e.position + 1)) := by
        apply List.filter_congr
        intro f hf
        have hef := hx f hf
        have hpe := (due_iff.mp hp).1
        rw [Bool.eq_iff_iff, due_iff, due_iff]
        exact and_congr_left' (by omega)
      have hpast : ¬ due wanted (e.position + 1) e = true :=
        fun hn => absurd (due_iff.mp hn).1 (by omega)
      rw [List.filter_cons_of_pos hp, List.filter_cons_of_neg hpast, hlater]
    · rw [List.find?_cons_of_neg hp] at h
      have hpe := (due_iff.mp (List.find?_some h)).1
      have hskip : ¬ due wanted (e.position + 1) x = true := by
        intro hn
        obtain ⟨hle, hw⟩ := due_iff.mp hn
        exact hp (due_iff.mpr ⟨by omega, hw⟩)
      rw [List.filter_cons_of_neg hp, List.filter_cons_of_neg hskip]
      exact ih hxs h

/-- Moving on takes the first of the wanted entries and leaves the rest. -/
theorem wantedFrom_of_some {l : Log α} {p : Nat} {e : Entry α} (h : l.firstFrom wanted p = some e) :
    l.wantedFrom wanted p = e :: l.wantedFrom wanted (e.position + 1) :=
  filter_of_find l.ordered h

/-- No wanted entry lies between the position and the one moved to. -/
theorem not_wanted_between {l : Log α} {p : Nat} {e f : Entry α} (h : l.firstFrom wanted p = some e)
    (hf : f ∈ l.entries) (hp : p ≤ f.position) (hlt : f.position < e.position) :
    wanted f.record = false := by
  by_contra hw
  have hmem : f ∈ l.wantedFrom wanted p := mem_wantedFrom.mpr ⟨hf, hp, by simpa using hw⟩
  rw [wantedFrom_of_some h] at hmem
  obtain rfl | hmem := List.mem_cons.mp hmem
  · exact Nat.lt_irrefl _ hlt
  · have := (mem_wantedFrom.mp hmem).2.1
    omega

/-- From the position of a wanted entry the reader moves to that entry. -/
theorem firstFrom_position {l : Log α} {e : Entry α} (he : e ∈ l.entries)
    (hw : wanted e.record = true) : l.firstFrom wanted e.position = some e := by
  cases h : l.firstFrom wanted e.position with
  | none =>
    have hmem : e ∈ l.wantedFrom wanted e.position := mem_wantedFrom.mpr ⟨he, Nat.le_refl _, hw⟩
    rw [wantedFrom_of_none h] at hmem
    cases hmem
  | some f =>
    obtain ⟨hle, _⟩ := due_iff.mp (List.find?_some h)
    have hf : f ∈ l.entries := List.mem_of_find?_eq_some h
    by_contra hne
    have hlt : e.position < f.position := by
      refine Nat.lt_of_le_of_ne hle fun heq => hne ?_
      rw [l.eq_of_position he hf heq]
    have := not_wanted_between h he (Nat.le_refl _) hlt
    rw [hw] at this
    cases this

/-- The wanted entry that a reader moves to is no later than any other. -/
theorem firstFrom_le {l : Log α} {p : Nat} {e : Entry α} (he : e ∈ l.entries)
    (hw : wanted e.record = true) (hp : p ≤ e.position) :
    ∃ f, l.firstFrom wanted p = some f ∧ f.position ≤ e.position := by
  cases h : l.firstFrom wanted p with
  | none =>
    have hmem : e ∈ l.wantedFrom wanted p := mem_wantedFrom.mpr ⟨he, hp, hw⟩
    rw [wantedFrom_of_none h] at hmem
    cases hmem
  | some f =>
    refine ⟨f, rfl, ?_⟩
    by_contra hlt
    have := not_wanted_between h he hp (by omega)
    rw [hw] at this
    cases this

theorem head?_wantedFrom (l : Log α) (p : Nat) :
    (l.wantedFrom wanted p).head? = l.firstFrom wanted p := List.head?_filter ..

variable (wanted) in
/-- No wanted entry lies between the two positions. -/
def SameFrom (l : Log α) (p q : Nat) : Prop :=
  ∀ e ∈ l.entries, wanted e.record = true → (p ≤ e.position ↔ q ≤ e.position)

/-- Such positions are one to a reader. -/
theorem SameFrom.wantedFrom_eq {l : Log α} {p q : Nat} (h : l.SameFrom wanted p q) :
    l.wantedFrom wanted p = l.wantedFrom wanted q := by
  apply List.filter_congr
  intro e he
  rw [Bool.eq_iff_iff, due_iff, due_iff]
  exact and_congr_left fun hw => h e he hw

/-- Readers that move to the same entry have no wanted entry between them. -/
theorem sameFrom_of_firstFrom {l : Log α} {p q : Nat}
    (h : l.firstFrom wanted p = l.firstFrom wanted q) : l.SameFrom wanted p q := by
  have hle : ∀ {p q : Nat}, l.firstFrom wanted p = l.firstFrom wanted q → ∀ e ∈ l.entries,
      wanted e.record = true → p ≤ e.position → q ≤ e.position := by
    intro p q h e he hw hp
    obtain ⟨f, hf, hle⟩ := firstFrom_le he hw hp
    rw [h] at hf
    exact Nat.le_trans (due_iff.mp (List.find?_some hf)).1 hle
  exact fun e he hw => ⟨hle h e he hw, hle h.symm e he hw⟩

theorem Extends.firstFrom {l l' : Log α} (h : l.Extends l') {p : Nat} {e : Entry α}
    (he : l.firstFrom wanted p = some e) : l'.firstFrom wanted p = some e := by
  obtain ⟨es, hes, _⟩ := h
  rw [Log.firstFrom] at he
  rw [Log.firstFrom, hes, List.find?_append, he, Option.some_or]

/-- What arrives comes last. -/
theorem Extends.wantedFrom {l l' : Log α} (h : l.Extends l') (p : Nat) :
    l.wantedFrom wanted p <+: l'.wantedFrom wanted p := by
  obtain ⟨es, he, _⟩ := h
  rw [Log.wantedFrom, Log.wantedFrom, he, List.filter_append]
  exact List.prefix_append _ _

/-- Behind one of the wanted entries come those after it. -/
theorem wantedFrom_after {l : Log α} {p : Nat} {xs ys : List (Entry α)} {e : Entry α}
    (h : l.wantedFrom wanted p = xs ++ e :: ys) : l.wantedFrom wanted (e.position + 1) = ys := by
  have hstep : ∀ {q : Nat} {x : Entry α} {zs : List (Entry α)}, l.wantedFrom wanted q = x :: zs →
      l.wantedFrom wanted (x.position + 1) = zs := by
    intro q x zs hq
    have hfirst : l.firstFrom wanted q = some x := by rw [← head?_wantedFrom, hq, List.head?_cons]
    rw [wantedFrom_of_some hfirst] at hq
    exact (List.cons.inj hq).2
  induction xs generalizing p with
  | nil => exact hstep h
  | cons x xs ih => exact ih (hstep h)

/-- A prefix of the wanted entries leaves no gap up to its last one. -/
theorem mem_of_prefix {l : Log α} {p : Nat} {es : List (Entry α)} {e f : Entry α}
    (h : es <+: l.wantedFrom wanted p) (he : e ∈ es) (hf : f ∈ l.wantedFrom wanted p)
    (hle : f.position ≤ e.position) : f ∈ es := by
  obtain ⟨rest, hrest⟩ := h
  rw [← hrest] at hf
  obtain hf | hf := List.mem_append.mp hf
  · exact hf
  · have hsorted : (l.wantedFrom wanted p).Pairwise fun a b => a.position < b.position :=
      l.ordered.sublist List.filter_sublist
    rw [← hrest, List.pairwise_append] at hsorted
    have := hsorted.2.2 e he f hf
    omega

end Reader

end Log

end Journal
