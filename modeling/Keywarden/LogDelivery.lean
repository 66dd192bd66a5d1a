import Keywarden.LogShipping

/-!
# No entry is skipped

The cursor moves only after the server has taken every entry up to its new place, so
whatever fails in whichever cycle, nothing up to the stored cursor is missing at the
server. A file leaves the spool only after the server has taken what is in it.
-/
namespace Keywarden.LogDelivery

open Rows Text Transitions Journal LogShipping
open AgentHost (goSpace)

variable (K : Cursors)

/-- The server has taken a batch with the entry in it. -/
def Acknowledged (w : World) (e : Entry Record) : Prop := ∃ batch, .json batch ∈ w.taken ∧ e ∈ batch

/-- The position of the stored cursor. -/
def storedPosition (w : World) : Option Nat :=
  if readCursor w = [] then none else K.locate (readCursor w)

/-- Nothing between the first cursor, at `p₀`, and the stored one is missing. -/
def NoneSkipped (p₀ : Nat) (w : World) : Prop :=
  ∀ p, storedPosition K w = some p → ∀ e ∈ w.journal.entries, matching e.record = true →
    p₀ < e.position → e.position ≤ p → Acknowledged w e

/-- A file that is removed has been taken whole. -/
def RemovesTaken (w : World) : Effect → Prop
  | .removed name => ∀ f ∈ w.spool, f.name = name → f.payload ∈ w.taken
  | _ => True

/-- The cursor file names an entry that is in the journal and wanted, and none before it
is missing. -/
structure Delivered (p₀ : Nat) (w : World) : Prop where
  stored : ∃ e ∈ w.journal.entries, matching e.record = true ∧ readCursor w = K.text e.position
  noneSkipped : NoneSkipped K p₀ w

variable {K} {p₀ : Nat} {w : World}

theorem storedPosition_text {e : Entry Record} (h : readCursor w = K.text e.position) :
    storedPosition K w = some e.position := by
  rw [storedPosition, h, if_neg (K.text_ne_nil _), K.locate_text]

theorem Acknowledged.run {e : Entry Record} (h : Acknowledged w e) (es : List Effect) :
    Acknowledged (run apply w es) e := by
  obtain ⟨batch, hb, he⟩ := h
  exact ⟨batch, (taken_run w es).subset hb, he⟩

/-! ## One effect -/

/-- As long as the cursor file stays, more entries and more batches change nothing. -/
theorem Delivered.mono {w' : World} (h : Delivered K p₀ w) (hext : w.journal.Extends w'.journal)
    (hcursor : w'.cursorFile = w.cursorFile) (htaken : w.taken <+: w'.taken) : Delivered K p₀ w' := by
  obtain ⟨e, he, hw, hc⟩ := h.stored
  have hc' : readCursor w' = K.text e.position := by
    rw [readCursor, hcursor]
    exact hc
  refine ⟨⟨e, hext.mem he, hw, hc'⟩, ?_⟩
  intro p hp f hf hfw hlo hhi
  rw [storedPosition_text hc', Option.some.injEq] at hp
  have hold : f ∈ w.journal.entries := by
    have := w.journal.bounded e he
    exact hext.mem_of_lt hf (by omega)
  obtain ⟨batch, hb, hmem⟩ := h.noneSkipped p (by rw [storedPosition_text hc, hp]) f hold hfw hlo hhi
  exact ⟨batch, htaken.subset hb, hmem⟩

theorem delivered_apply (h : Delivered K p₀ w) {e : Effect} (he : ∀ text, e ≠ .cursorWritten text) :
    Delivered K p₀ (apply w e) := by
  cases e with
  | arrived r => exact h.mono (Log.extends_appendAll w.journal [r]) rfl (List.prefix_refl _)
  | cursorWritten text => exact absurd rfl (he text)
  | sent p accepted =>
    obtain ⟨hj, hc⟩ := apply_onSpool w (e := .sent p accepted) rfl
    exact h.mono (by rw [hj]; exact Log.Extends.refl _) hc (taken_apply w (.sent p accepted))
  | _ => exact h.mono (Log.Extends.refl _) rfl (List.prefix_refl _)

theorem delivered_run (h : Delivered K p₀ w) {es : List Effect}
    (hes : ∀ e ∈ es, ∀ text, e ≠ .cursorWritten text) : Always apply (Delivered K p₀) w es :=
  always_invariant (P := fun _ e => ∀ text, e ≠ .cursorWritten text)
    (fun _ _ h he => delivered_apply h he) h (along_of_mem w hes)

theorem not_cursor_of_onSpool {es : List Effect} (h : ∀ e ∈ es, e.onSpool = true) :
    ∀ e ∈ es, ∀ text, e ≠ .cursorWritten text := by
  rintro e he text rfl
  cases h _ he

/-! ## One cycle -/

/-- After a batch from the stored cursor on has been taken, the cursor may move to its
last entry. -/
theorem delivered_cursor (h : Delivered K p₀ w) {start : Nat} {batch : Batch} {e : Entry Record}
    (hstart : ∀ p, storedPosition K w = some p → start ≤ p + 1)
    (hpre : batch <+: w.journal.wantedFrom matching start) (hlast : batch.getLast? = some e)
    (htaken : .json batch ∈ w.taken) :
    Delivered K p₀ (apply w (.cursorWritten (K.text e.position ++ ['\n']))) := by
  have hmem : e ∈ batch := List.mem_of_getLast? hlast
  obtain ⟨hej, _, hew⟩ := Log.mem_wantedFrom.mp (hpre.subset hmem)
  have hc : readCursor (apply w (.cursorWritten (K.text e.position ++ ['\n']))) = K.text e.position :=
    strip_cursor K e.position
  refine ⟨⟨e, hej, hew, hc⟩, ?_⟩
  intro p hp f hf hfw hlo hhi
  rw [storedPosition_text hc, Option.some.injEq] at hp
  obtain ⟨o, _, _, ho⟩ := h.stored
  have hs := hstart _ (storedPosition_text ho)
  by_cases hold : f.position ≤ o.position
  · exact h.noneSkipped _ (storedPosition_text ho) f hf hfw hlo hold
  · have hfrom : f ∈ w.journal.wantedFrom matching start :=
      Log.mem_wantedFrom.mpr ⟨hf, by omega, hfw⟩
    exact ⟨batch, htaken, Log.mem_of_prefix hpre hmem hfrom (by omega)⟩

theorem delivered_ship (h : Delivered K p₀ w) (start : Nat) {batch : Batch} (c : Cycle)
    (hstart : ∀ p, storedPosition K w = some p → start ≤ p + 1)
    (hpre : batch <+: w.journal.wantedFrom matching start) :
    Always apply (Delivered K p₀) w (ship K c batch) := by
  unfold ship
  split
  · refine ⟨h, ?_⟩
    have hsent : Delivered K p₀ (apply w (.sent (.json batch) true)) :=
      delivered_apply h (by intro text ht; cases ht)
    unfold writeCursor
    split
    · exact hsent
    · next hwrite =>
      refine ⟨hsent, ?_⟩
      have hne := (not_or.mp hwrite).1
      unfold nextCursor at hne ⊢
      cases hlast : batch.getLast? with
      | none =>
        rw [hlast] at hne
        exact absurd rfl hne
      | some e =>
        exact delivered_cursor hsent hstart hpre hlast
          (List.mem_append_right _ (List.mem_singleton_self _))
  · have hsave : ∀ e ∈ Effect.sent (.json batch) false :: saveSpool c.saving c.unixNano batch,
        e.onSpool = true := by
      intro e he
      obtain rfl | he := List.mem_cons.mp he
      · rfl
      · exact saveSpool_onSpool _ _ _ e he
    exact delivered_run h (not_cursor_of_onSpool hsave)

theorem delivered_shipJournal (h : Delivered K p₀ w) (limit : Int) (c : Cycle) {v : World}
    (hjournal : v.journal = w.journal) (hcursor : v.cursorFile = w.cursorFile) :
    Always apply (Delivered K p₀) w (shipJournal K limit c v) := by
  unfold shipJournal
  split
  · exact h
  simp only
  obtain ⟨o, ho, how, hoc⟩ := h.stored
  have hread : readCursor v = K.text o.position := by
    rw [readCursor, hcursor]
    exact hoc
  rw [hjournal, hread]
  let r := collect K c.reading w.journal (K.text o.position) limit
  have harrived : Always apply (Delivered K p₀) w (r.arrived.map .arrived) := by
    refine delivered_run h fun e he text ht => ?_
    obtain ⟨a, _, rfl⟩ := List.mem_map.mp he
    cases ht
  refine always_append.mpr ⟨harrived, ?_⟩
  have hnow := always_last harrived
  split
  · exact hnow
  · have hrun := run_arrived w r.arrived
    refine delivered_ship hnow (startOf K c.reading w.journal (K.text o.position)) c ?_ ?_
    · intro p hp
      rw [hrun] at hp
      rw [show storedPosition K { w with journal := w.journal.appendAll r.arrived } =
        some o.position from storedPosition_text hoc, Option.some.injEq] at hp
      rw [← hp]
      exact startOf_le K c.reading w.journal ho how
    · rw [hrun]
      exact collect_prefix K c.reading w.journal (K.text o.position) limit

theorem delivered_cycle (h : Delivered K p₀ w) (limit : Int) (c : Cycle) :
    Always apply (Delivered K p₀) w (cycle K limit w c) := by
  have hbefore : Always apply (Delivered K p₀) w (c.before.map .arrived) := by
    refine delivered_run h fun e he text ht => ?_
    obtain ⟨a, _, rfl⟩ := List.mem_map.mp he
    cases ht
  refine always_append.mpr ⟨hbefore, ?_⟩
  have hnow := always_last hbefore
  rw [run_arrived] at hnow ⊢
  let v : World := { w with journal := w.journal.appendAll c.before }
  have hdrained : ∀ e ∈ (drainSpool c v).1, e.onSpool = true := drainSpool_onSpool c v
  have hdrain := delivered_run hnow (not_cursor_of_onSpool hdrained)
  refine always_append.mpr ⟨hdrain, ?_⟩
  split
  · obtain ⟨hj, hc⟩ := run_onSpool v hdrained
    exact delivered_shipJournal (always_last hdrain) limit c hj.symm hc.symm
  · exact always_last hdrain

/-! ## Removals -/

/-- The file that a drain has just sent is the only one of its name. -/
theorem removes_drainFrom (d : Nat → Draining) (k : Nat) {t : Table SpoolFile} {files : List SpoolFile}
    (hfiles : ∀ f ∈ files, f ∈ t) (hspool : ∀ f ∈ w.spool, f ∈ t) :
    Along apply RemovesTaken w (drainFrom d k files).1 := by
  induction files generalizing k w with
  | nil => trivial
  | cons f files ih =>
    unfold drainFrom
    split
    · trivial
    split
    · exact ⟨trivial, trivial⟩
    split
    · exact ⟨trivial, trivial⟩
    · refine ⟨trivial, ?_, ?_⟩
      · intro g hg hname
        have heq : g = f := t.eq_of_key (hspool g hg) (hfiles f List.mem_cons_self) hname
        rw [heq]
        exact List.mem_append_right _ (List.mem_singleton_self _)
      · refine ih (k + 1) (fun g hg => hfiles g (List.mem_cons_of_mem _ hg)) fun g hg => ?_
        exact hspool g ((Table.mem_delete _ _ _).mp hg).1

theorem removes_drainSpool (c : Cycle) : Along apply RemovesTaken w (drainSpool c w).1 := by
  unfold drainSpool
  split
  · trivial
  · refine removes_drainFrom c.draining 0 (t := w.spool) ?_ fun f hf => hf
    intro f hf
    exact (Table.mem_toList _ _).mp ((List.mem_insertionSort _).mp hf)

theorem removes_none {es : List Effect} (h : ∀ e ∈ es, ∀ name, e ≠ .removed name) :
    Along apply RemovesTaken w es := by
  induction es generalizing w with
  | nil => trivial
  | cons e es ih =>
    refine ⟨?_, ih fun e he => h e (List.mem_cons_of_mem _ he)⟩
    cases e with
    | removed name => exact absurd rfl (h _ List.mem_cons_self name)
    | _ => trivial

theorem ship_removes_none (c : Cycle) (batch : Batch) :
    ∀ e ∈ ship K c batch, ∀ name, e ≠ .removed name := by
  unfold ship writeCursor saveSpool
  split
  · split <;> simp
  · split <;> simp

theorem removes_cycle (limit : Int) (c : Cycle) : Along apply RemovesTaken w (cycle K limit w c) := by
  have harrived : ∀ rs : List Record, ∀ e ∈ rs.map Effect.arrived, ∀ name, e ≠ .removed name := by
    intro rs e he name hn
    obtain ⟨a, _, rfl⟩ := List.mem_map.mp he
    cases hn
  refine along_append.mpr ⟨removes_none (harrived _), ?_⟩
  rw [run_arrived]
  refine along_append.mpr ⟨removes_drainSpool c, removes_none fun e he => ?_⟩
  split at he
  · unfold shipJournal at he
    split at he
    · cases he
    · obtain he | he := List.mem_append.mp he
      · exact harrived _ e he
      · split at he
        · cases he
        · exact ship_removes_none c _ e he
  · cases he

/-! ## Whole runs -/

theorem delivered_trace (h : Delivered K p₀ w) (limit : Int) (cs : List Cycle) :
    Always apply (Delivered K p₀) w (trace K limit w cs) := by
  induction cs generalizing w with
  | nil => exact h
  | cons c cs ih =>
    have hcycle := delivered_cycle h limit c
    exact always_append.mpr ⟨hcycle, ih (always_last hcycle)⟩

theorem removes_trace (limit : Int) (cs : List Cycle) :
    Along apply RemovesTaken w (trace K limit w cs) := by
  induction cs generalizing w with
  | nil => trivial
  | cons c cs ih => exact along_append.mpr ⟨removes_cycle limit c, ih⟩

/-- From a stored cursor, whatever fails in whichever cycle: at every moment the server
has taken each wanted entry between that cursor and the stored one, and a spool file is
removed only when the server has taken all of it. -/
theorem none_skipped (K : Cursors) (limit : Int) (w : World) (e₀ : Entry Record)
    (he₀ : e₀ ∈ w.journal.entries) (hw₀ : matching e₀.record = true)
    (hcursor : w.cursorFile = some (K.text e₀.position ++ ['\n'])) (cycles : List Cycle) :
    Always apply (NoneSkipped K e₀.position) w (trace K limit w cycles) ∧
      Along apply RemovesTaken w (trace K limit w cycles) := by
  have hread : readCursor w = K.text e₀.position := by
    rw [readCursor, hcursor]
    exact strip_cursor K e₀.position
  have hstart : Delivered K e₀.position w := by
    refine ⟨⟨e₀, he₀, hw₀, hread⟩, ?_⟩
    intro p hp e _ _ hlo hhi
    rw [storedPosition_text hread, Option.some.injEq] at hp
    omega
  refine ⟨?_, removes_trace limit cycles⟩
  rw [always_iff]
  intro es hes
  exact ((always_iff _ _ _ _).mp (delivered_trace hstart limit cycles) es hes).noneSkipped

/-- A send fails, then everything works, and the entry that arrived is with the server. -/
theorem none_skipped_after_outage :
    Acknowledged
      (run apply oneEntry (trace decimal 500 oneEntry [onlySends [sshRecord] true false,
        onlySends [] true true])) ⟨1, sshRecord⟩ := by
  have h := (none_skipped decimal 500 oneEntry ⟨0, sshRecord⟩ (by decide) (by decide) rfl
    [onlySends [sshRecord] true false, onlySends [] true true]).1
  exact always_last h 1 (by decide +kernel) _ (by decide +kernel) (by decide) (by decide) (by decide)

end Keywarden.LogDelivery
