import Keywarden.LogShipping

/-!
# Resuming from a stored cursor

`Collect` seeks to the cursor it is given and takes one step, to be past the entry that was
delivered last. The journal may have dropped that entry meanwhile; then the step goes past an
entry that was not delivered. When the seek fails, the step is left out and the reader is at
the head of the journal.
-/
namespace Keywarden.LogResume

open Journal LogShipping

/-- The cursor of an entry that the journal has, or has had until it dropped it. -/
structure StoredCursor (j : Log Record) where
  position : Nat
  old : position < j.next

variable (K : Cursors) (r : Reading) (j : Log Record) (cursor : StoredCursor j) (limit : Int)

def resumed : Collected := collect K r j (K.text cursor.position) limit

/-- The matching entries that are newer than the one of the cursor, those that arrive during
the collection with them. -/
def newer : List (Entry Record) :=
  (j.appendAll (resumed K r j cursor limit).arrived).wantedFrom matching (cursor.position + 1)

/-- The collection is what comes behind the cursor: when it ends without an error, the first
`limit` entries, when it ends with one, some of the first. -/
structure Resumes : Prop where
  in_order : (resumed K r j cursor limit).events <+: newer K r j cursor limit
  complete : (resumed K r j cursor limit).failed = false →
    (resumed K r j cursor limit).events = (newer K r j cursor limit).take (batchLimit limit)
  next_cursor : ∀ e ∈ (resumed K r j cursor limit).events.getLast?,
    nextCursor K (resumed K r j cursor limit).events = K.text e.position

/-- The entry of the cursor is still there for the reader. -/
def Present : Prop :=
  ∃ e ∈ (j.appendAll r.early).entries, matching e.record = true ∧ e.position = cursor.position

/-- The step after the seek is the one past the entry of the cursor: the entry is there, or
there is nothing behind it that could be passed over. A step that fails passes over nothing, and
a seek that fails leads to the head of the journal. -/
def Lands : Prop :=
  if r.sought then
    if r.skipped then
      Present r j cursor ∨ ∀ e ∈ (j.appendAll r.early).entries, matching e.record = true →
        e.position < cursor.position
    else ¬ Present r j cursor
  else ∀ e ∈ j.entries, matching e.record = true → cursor.position < e.position

variable {K r j cursor limit}

/-! ## What the loop reads -/

theorem readFrom_complete {k room : Nat} {l : Log Record} {p : Nat}
    (h : (readFrom r k room l p).failed = false) :
    (readFrom r k room l p).events =
      ((l.appendAll (readFrom r k room l p).arrived).wantedFrom matching p).take room := by
  induction room generalizing k l p with
  | zero => rw [List.take_zero, readFrom]
  | succ room ih =>
    unfold readFrom at h ⊢
    split at h
    · cases h
    next hcancelled =>
    simp only at h ⊢
    split at h
    · cases h
    next hnext =>
    rw [if_neg hcancelled, if_neg hnext]
    split at h
    · next hnone => rw [Log.wantedFrom_of_none hnone, List.take_nil]
    · next e he =>
      split at h
      · cases h
      next hentry =>
      rw [if_neg hentry]
      simp only [append_journal]
      rw [Log.wantedFrom_of_some ((Log.extends_appendAll _ _).firstFrom he), List.take_succ_cons, ih h]

theorem collect_complete {s : List Char} (h : (collect K r j s limit).failed = false) :
    (collect K r j s limit).events =
      ((j.appendAll (collect K r j s limit).arrived).wantedFrom matching (startOf K r j s)).take
        (batchLimit limit) := by
  unfold collect at h ⊢
  split at h
  · cases h
  · next hopened =>
    rw [if_neg hopened]
    simp only [append_journal]
    exact readFrom_complete h

/-- Reads from the same journal that give as many entries start at the same one. -/
theorem firstFrom_of_take {l : Log Record} {p q : Nat}
    (h : (l.wantedFrom matching p).take (batchLimit limit) =
      (l.wantedFrom matching q).take (batchLimit limit)) :
    l.firstFrom matching p = l.firstFrom matching q := by
  have hhead := congrArg List.head? h
  rwa [List.head?_take, List.head?_take, if_neg (Nat.ne_of_gt (batchLimit_pos limit)),
    if_neg (Nat.ne_of_gt (batchLimit_pos limit)), Log.head?_wantedFrom, Log.head?_wantedFrom] at hhead

/-! ## Where it starts -/

theorem startOf_cursor : startOf K r j (K.text cursor.position) =
    if r.sought then
      if r.skipped then
        ((j.appendAll r.early).firstFrom matching cursor.position).elim cursor.position
          fun e => e.position + 1
      else cursor.position
    else 0 := by
  unfold startOf seek
  rw [if_pos (K.text_ne_nil _)]
  cases r.sought with
  | false => rfl
  | true =>
    simp only [if_true, K.locate_text]
    cases r.skipped with
    | false => rfl
    | true =>
      simp only [Bool.not_true, Bool.false_eq_true, if_false, if_true]
      cases (j.appendAll r.early).firstFrom matching cursor.position <;> rfl

/-- What the collection ends with, when the journal opens. -/
theorem extends_resumed (hopened : r.opened = true) :
    (j.appendAll r.early).Extends (j.appendAll (resumed K r j cursor limit).arrived) := by
  rw [resumed, collect, hopened]
  simp only [Bool.not_true, Bool.false_eq_true, if_false, append_journal]
  exact Log.extends_appendAll _ _

/-- Nothing arrives in the place of an entry that has been dropped. -/
theorem mem_of_le {l : Log Record} (h : j.Extends l) {e : Entry Record} (he : e ∈ l.entries)
    (hle : e.position ≤ cursor.position) : e ∈ j.entries :=
  h.mem_of_lt he (Nat.lt_of_le_of_lt hle cursor.old)

/-- A reader that starts at the head of the journal. -/
theorem sameFrom_head_iff {l : Log Record} (hj : j.Extends l) :
    l.SameFrom matching 0 (cursor.position + 1) ↔
      ∀ e ∈ j.entries, matching e.record = true → cursor.position < e.position := by
  constructor
  · intro h e he hw
    exact (h e (hj.mem he) hw).mp (Nat.zero_le _)
  · intro h e he hw
    refine iff_of_true (Nat.zero_le _) ?_
    by_contra hlt
    have hle : e.position ≤ cursor.position := by omega
    exact hlt (h e (mem_of_le hj he hle) hw)

/-- One that starts at the entry of the cursor. -/
theorem sameFrom_cursor_iff {l : Log Record} (hj : j.Extends l)
    (hearly : (j.appendAll r.early).Extends l) :
    l.SameFrom matching cursor.position (cursor.position + 1) ↔ ¬ Present r j cursor := by
  constructor
  · rintro h ⟨e, he, hw, hpos⟩
    have := (h e (hearly.mem he) hw).mp (Nat.le_of_eq hpos.symm)
    omega
  · intro h e he hw
    have hne : e.position ≠ cursor.position := by
      intro heq
      exact h ⟨e, (Log.extends_appendAll j r.early).mem (mem_of_le hj he (Nat.le_of_eq heq)), hw, heq⟩
    omega

/-- One that starts past the first entry from there on. -/
theorem sameFrom_past_iff {l : Log Record} (hearly : (j.appendAll r.early).Extends l)
    {f : Entry Record} (hfirst : (j.appendAll r.early).firstFrom matching cursor.position = some f) :
    l.SameFrom matching (f.position + 1) (cursor.position + 1) ↔ Present r j cursor := by
  have hf := List.mem_of_find?_eq_some hfirst
  obtain ⟨hle, hw⟩ := Log.due_iff.mp (List.find?_some hfirst)
  constructor
  · intro h
    have := h f (hearly.mem hf) hw
    exact ⟨f, hf, hw, by omega⟩
  · rintro ⟨e, he, hwe, hpos⟩
    have hfirst' := Log.firstFrom_position he hwe
    rw [hpos, hfirst] at hfirst'
    rw [Option.some.inj hfirst', hpos]
    exact fun _ _ _ => Iff.rfl

/-- The reader starts behind the cursor exactly if the step lands. -/
theorem sameFrom_startOf_iff {l : Log Record} (hj : j.Extends l)
    (hearly : (j.appendAll r.early).Extends l) :
    l.SameFrom matching (startOf K r j (K.text cursor.position)) (cursor.position + 1) ↔
      Lands r j cursor := by
  rw [startOf_cursor, Lands]
  split
  · split
    · cases hfirst : (j.appendAll r.early).firstFrom matching cursor.position with
      | none =>
        have hbefore : ∀ e ∈ (j.appendAll r.early).entries, matching e.record = true →
            e.position < cursor.position := by
          intro e he hw
          by_contra hlt
          obtain ⟨f, hf, _⟩ := Log.firstFrom_le he hw (Nat.le_of_not_lt hlt)
          rw [hfirst] at hf
          cases hf
        refine iff_of_true ((sameFrom_cursor_iff hj hearly).mpr ?_) (.inr hbefore)
        rintro ⟨e, he, hw, hpos⟩
        exact absurd (hbefore e he hw) (by omega)
      | some f =>
        have hf := List.mem_of_find?_eq_some hfirst
        obtain ⟨hle, hw⟩ := Log.due_iff.mp (List.find?_some hfirst)
        rw [Option.elim_some, sameFrom_past_iff hearly hfirst]
        exact ⟨.inl, fun h => h.resolve_right fun hbefore => absurd (hbefore f hf hw) (by omega)⟩
    · exact sameFrom_cursor_iff hj hearly
  · exact sameFrom_head_iff hj

/-! ## What is collected -/

theorem nextCursor_getLast (events : Batch) :
    ∀ e ∈ events.getLast?, nextCursor K events = K.text e.position := by
  intro e he
  rw [nextCursor, Option.mem_def.mp he]

theorem resumes_of_lands (h : Lands r j cursor) : Resumes K r j cursor limit := by
  by_cases hopened : r.opened = true
  · have hwanted : (j.appendAll (resumed K r j cursor limit).arrived).wantedFrom matching
        (startOf K r j (K.text cursor.position)) = newer K r j cursor limit :=
      ((sameFrom_startOf_iff (Log.extends_appendAll _ _) (extends_resumed hopened)).mpr h).wantedFrom_eq
    refine ⟨?_, fun hfailed => ?_, nextCursor_getLast _⟩
    · rw [← hwanted]
      exact collect_prefix K r j _ limit
    · rw [← hwanted]
      exact collect_complete hfailed
  · have hnothing : resumed K r j cursor limit = ⟨[], [], true⟩ := by
      rw [resumed, collect, if_pos (by simpa using hopened)]
    refine ⟨?_, fun hfailed => ?_, nextCursor_getLast _⟩
    · rw [hnothing]
      exact List.nil_prefix
    · rw [hnothing] at hfailed
      cases hfailed

/-- For every journal and stored cursor, whatever the calls to the journal meet and whatever
arrives meanwhile: if the step after the seek lands on the entry of the cursor, or passes over
nothing, the collection is what comes behind the cursor; and a collection that ends without an
error is that in no other case. -/
theorem resumes_iff_lands (K : Cursors) (r : Reading) (j : Log Record) (cursor : StoredCursor j)
    (limit : Int) : (Lands r j cursor → Resumes K r j cursor limit) ∧
      ((resumed K r j cursor limit).failed = false → Resumes K r j cursor limit → Lands r j cursor) := by
  refine ⟨resumes_of_lands, fun hfailed h => ?_⟩
  have hopened : r.opened = true := by
    by_contra hno
    rw [resumed, collect, if_pos (by simpa using hno)] at hfailed
    cases hfailed
  have hfirst : (j.appendAll (resumed K r j cursor limit).arrived).firstFrom matching
      (startOf K r j (K.text cursor.position)) =
      (j.appendAll (resumed K r j cursor limit).arrived).firstFrom matching (cursor.position + 1) :=
    firstFrom_of_take ((collect_complete hfailed).symm.trans (h.complete hfailed))
  exact (sameFrom_startOf_iff (Log.extends_appendAll _ _) (extends_resumed hopened)).mp
    (Log.sameFrom_of_firstFrom hfirst)

/-- A journal that has dropped its first entry, of which the cursor is, and kept two others. -/
def vacuumed : Log Record where
  entries := [⟨1, sshRecord⟩, ⟨2, sshRecord⟩]
  next := 3
  ordered := by simp
  bounded := by simp

def dropped : StoredCursor vacuumed := ⟨0, by decide⟩

/-- The second entry is skipped with the first. -/
theorem dropped_skips : ¬ ∀ (K : Cursors) (r : Reading) (j : Log Record) (cursor : StoredCursor j)
    (limit : Int), Resumes K r j cursor limit := by
  intro h
  have hcomplete := (h decimal (onlySends [] true true).reading vacuumed dropped 0).complete rfl
  exact absurd hcomplete (by decide +kernel)

end Keywarden.LogResume
