import Keywarden.LogDelivery

/-!
# The server reads the journal in its order

What the server has taken never has a hole. When it takes a batch, whether from the
journal or out of the spool after failures, each wanted entry that stands before the last
one of the batch is in the batch or was taken earlier.
-/
namespace Keywarden.LogOrder

open Rows Text Transitions Journal LogShipping LogDelivery

/-- A batch that the server may take next: wanted entries of the journal in their order,
and none missing before them. -/
structure Contiguous (p₀ : Nat) (w : World) (b : Batch) : Prop where
  ascending : b.Pairwise fun e f => e.position < f.position
  known : ∀ e ∈ b, e ∈ w.journal.entries ∧ matching e.record = true
  noGap : ∀ e ∈ b, ∀ f ∈ w.journal.entries, matching f.record = true → p₀ < f.position →
    f.position ≤ e.position → Acknowledged w f ∨ f ∈ b

/-- Each batch that the server has taken follows the ones that it has taken. -/
def InOrder (p₀ : Nat) (w : World) : Prop := ∀ b, .json b ∈ w.taken → Contiguous p₀ w b

/-- So does each batch of the spool. -/
def Queued (p₀ : Nat) (w : World) : Prop := ∀ f ∈ w.spool, ∀ b, f.payload = .json b → Contiguous p₀ w b

/-- Only such batches are sent or saved. -/
def Offers (p₀ : Nat) (w : World) : Effect → Prop
  | .sent (.json b) true => Contiguous p₀ w b
  | .saved f => ∀ b, f.payload = .json b → Contiguous p₀ w b
  | _ => True

def Ordered (p₀ : Nat) (w : World) : Prop := InOrder p₀ w ∧ Queued p₀ w

variable {K : Cursors} {p₀ : Nat} {w : World}

/-! ## One effect -/

/-- More entries stand behind the batch, and nothing that was taken is taken back. -/
theorem Contiguous.mono {w' : World} {b : Batch} (h : Contiguous p₀ w b)
    (hext : w.journal.Extends w'.journal) (htaken : w.taken <+: w'.taken) : Contiguous p₀ w' b := by
  refine ⟨h.ascending, fun e he => ⟨hext.mem (h.known e he).1, (h.known e he).2⟩, ?_⟩
  intro e he f hf hw hlo hhi
  have hlt := w.journal.bounded e (h.known e he).1
  have hold : f ∈ w.journal.entries := hext.mem_of_lt hf (by omega)
  obtain ⟨b', hb', hfb'⟩ | hfb := h.noGap e he f hold hw hlo hhi
  · exact .inl ⟨b', htaken.subset hb', hfb'⟩
  · exact .inr hfb

theorem extends_apply (w : World) (e : Effect) : w.journal.Extends (apply w e).journal := by
  cases e with
  | arrived r => exact Log.extends_appendAll w.journal [r]
  | sent p accepted => cases accepted <;> exact Log.Extends.refl _
  | _ => exact Log.Extends.refl _

theorem Contiguous.apply {b : Batch} (h : Contiguous p₀ w b) (e : Effect) :
    Contiguous p₀ (apply w e) b :=
  h.mono (extends_apply w e) (taken_apply w e)

/-- What an effect leaves in the spool was there under some name, or has just been saved. -/
theorem mem_spool_apply {e : Effect} {f : SpoolFile} (h : f ∈ (apply w e).spool) :
    (∃ g ∈ w.spool, g.payload = f.payload) ∨ e = .saved f := by
  cases e with
  | saved g =>
    obtain rfl | ⟨hf, _⟩ := (Table.mem_upsert _ _ _).mp h
    · exact .inr rfl
    · exact .inl ⟨f, hf, rfl⟩
  | removed name => exact .inl ⟨f, ((Table.mem_delete _ _ _).mp h).1, rfl⟩
  | sent p accepted => cases accepted <;> exact .inl ⟨f, h, rfl⟩
  | renamed source target =>
    simp only [apply, rename] at h
    cases hfind : w.spool.find source with
    | none =>
      rw [hfind] at h
      exact .inl ⟨f, h, rfl⟩
    | some g =>
      rw [hfind] at h
      obtain rfl | ⟨hf, _⟩ := (Table.mem_upsert _ _ _).mp h
      · exact .inl ⟨g, ((Table.find_eq_some _ _ _).mp hfind).1, rfl⟩
      · exact .inl ⟨f, ((Table.mem_delete _ _ _).mp hf).1, rfl⟩
  | _ => exact .inl ⟨f, h, rfl⟩

/-- What an effect adds to the taken batches is what it sends. -/
theorem mem_taken_apply {e : Effect} {p : Payload} (h : p ∈ (apply w e).taken) :
    p ∈ w.taken ∨ e = .sent p true := by
  cases e with
  | sent q accepted =>
    cases accepted with
    | true =>
      obtain h | h := List.mem_append.mp h
      · exact .inl h
      · exact .inr (by rw [List.mem_singleton.mp h])
    | false => exact .inl h
  | _ => exact .inl h

theorem ordered_apply {e : Effect} (h : Ordered p₀ w) (he : Offers p₀ w e) : Ordered p₀ (apply w e) := by
  constructor
  · intro b hb
    obtain hb | rfl := mem_taken_apply hb
    · exact (h.1 b hb).apply e
    · exact Contiguous.apply he _
  · intro f hf b hp
    obtain ⟨g, hg, hgf⟩ | rfl := mem_spool_apply hf
    · exact (h.2 g hg b (hgf.trans hp)).apply e
    · exact (he b hp).apply _

/-! ## One cycle -/

theorem offers_drainFrom (d : Nat → Draining) (k : Nat) {files : List SpoolFile}
    (h : ∀ f ∈ files, ∀ b, f.payload = .json b → Contiguous p₀ w b) :
    Along apply (Offers p₀) w (drainFrom d k files).1 := by
  induction files generalizing k w with
  | nil => trivial
  | cons f files ih =>
    have hsent : Offers p₀ w (.sent f.payload true) := by
      cases hp : f.payload with
      | json b => exact h f List.mem_cons_self b hp
      | torn b n => trivial
    have hrefused : Offers p₀ w (.sent f.payload false) := by
      cases f.payload <;> trivial
    simp only [drainFrom]
    split
    · trivial
    split
    · exact ⟨hrefused, trivial⟩
    split
    · exact ⟨hsent, trivial⟩
    · refine ⟨hsent, trivial, ih (k + 1) fun g hg b hb => ?_⟩
      exact ((h g (List.mem_cons_of_mem _ hg) b hb).apply _).apply _

theorem offers_drainSpool (h : Queued p₀ w) (c : Cycle) :
    Along apply (Offers p₀) w (drainSpool c w).1 := by
  simp only [drainSpool]
  split
  · trivial
  · exact offers_drainFrom _ 0 fun f hf => h f ((List.mem_insertionSort _).mp hf)

/-- What is collected from the stored cursor on follows what the server has taken. -/
theorem contiguous_collected (h : Delivered K p₀ w) {start : Nat} {b : Batch}
    (hstart : ∀ p, storedPosition K w = some p → start ≤ p + 1)
    (hpre : b <+: w.journal.wantedFrom matching start) : Contiguous p₀ w b := by
  refine ⟨(w.journal.ordered.sublist List.filter_sublist).sublist hpre.sublist, ?_, ?_⟩
  · intro e he
    obtain ⟨hej, _, hew⟩ := Log.mem_wantedFrom.mp (hpre.subset he)
    exact ⟨hej, hew⟩
  · intro e he f hf hw hlo hhi
    obtain ⟨o, _, _, ho⟩ := h.stored
    have hstored := storedPosition_text ho
    have hs := hstart _ hstored
    by_cases hold : f.position ≤ o.position
    · exact .inl (h.noneSkipped _ hstored f hf hw hlo hold)
    · have hfrom : f ∈ w.journal.wantedFrom matching start :=
        Log.mem_wantedFrom.mpr ⟨hf, by omega, hw⟩
      exact .inr (Log.mem_of_prefix hpre he hfrom hhi)

theorem offers_ship {b : Batch} (h : Contiguous p₀ w b) (c : Cycle) :
    Along apply (Offers p₀) w (ship K c b) := by
  simp only [ship]
  split
  · refine ⟨h, ?_⟩
    simp only [writeCursor]
    split
    · trivial
    · exact ⟨trivial, trivial⟩
  · refine ⟨trivial, ?_⟩
    have hsaved : ∀ name, Offers p₀ (apply w (.sent (.json b) false)) (.saved ⟨name, .json b⟩) := by
      rintro name b' hb
      obtain rfl : b = b' := by simpa using hb
      exact h
    cases hsave : c.saving with
    | mkdirFailed => trivial
    | writeFailed left =>
      cases left with
      | none => trivial
      | some n => exact ⟨by intro b' hb; simp at hb, trivial⟩
    | renameFailed => exact ⟨hsaved _, trivial⟩
    | done => exact ⟨hsaved _, trivial, trivial⟩

theorem offers_arrived (w : World) (rs : List Record) :
    Along apply (Offers p₀) w (rs.map .arrived) := by
  induction rs generalizing w with
  | nil => trivial
  | cons r rs ih => exact ⟨trivial, ih _⟩

theorem offers_shipJournal (h : Delivered K p₀ w) (limit : Int) (c : Cycle) {v : World}
    (hjournal : v.journal = w.journal) (hcursor : v.cursorFile = w.cursorFile) :
    Along apply (Offers p₀) w (shipJournal K limit c v) := by
  simp only [shipJournal]
  split
  · trivial
  obtain ⟨o, ho, how, hoc⟩ := h.stored
  have hread : readCursor v = K.text o.position := by
    rw [readCursor, hcursor]
    exact hoc
  rw [hjournal, hread]
  let r := collect K c.reading w.journal (K.text o.position) limit
  refine along_append.mpr ⟨offers_arrived w r.arrived, ?_⟩
  rw [run_arrived]
  split
  · trivial
  · refine offers_ship ?_ c
    have hlater : Delivered K p₀ { w with journal := w.journal.appendAll r.arrived } :=
      h.mono (Log.extends_appendAll _ _) rfl (List.prefix_refl _)
    have hfront := collect_prefix K c.reading w.journal (K.text o.position) limit
    refine contiguous_collected hlater ?_ hfront
    intro p hp
    have hstored : storedPosition K { w with journal := w.journal.appendAll r.arrived } = some o.position :=
      storedPosition_text hoc
    obtain rfl : o.position = p := by simpa [hstored] using hp
    exact startOf_le K c.reading w.journal ho how

theorem offers_cycle (h : Delivered K p₀ w) (hq : Queued p₀ w) (limit : Int) (c : Cycle) :
    Along apply (Offers p₀) w (cycle K limit w c) := by
  refine along_append.mpr ⟨offers_arrived w c.before, ?_⟩
  rw [run_arrived]
  let v : World := { w with journal := w.journal.appendAll c.before }
  have hext : w.journal.Extends v.journal := Log.extends_appendAll _ _
  have hv : Delivered K p₀ v := h.mono hext rfl (List.prefix_refl _)
  have hqv : Queued p₀ v := fun f hf b hb => (hq f hf b hb).mono hext (List.prefix_refl _)
  have hdrained := drainSpool_onSpool c v
  refine along_append.mpr ⟨offers_drainSpool hqv c, ?_⟩
  split
  · obtain ⟨hj, hc⟩ := run_onSpool v hdrained
    have hnow := always_last (delivered_run hv (not_cursor_of_onSpool hdrained))
    exact offers_shipJournal hnow limit c hj.symm hc.symm
  · trivial

/-! ## Whole runs -/

theorem offers_trace (h : Delivered K p₀ w) (ho : Ordered p₀ w) (limit : Int) (cs : List Cycle) :
    Along apply (Offers p₀) w (trace K limit w cs) := by
  induction cs generalizing w with
  | nil => trivial
  | cons c cs ih =>
    have hcycle := offers_cycle h ho.2 limit c
    have hordered := run_invariant (fun _ _ h he => ordered_apply h he) ho hcycle
    exact along_append.mpr ⟨hcycle, ih (always_last (delivered_cycle h limit c)) hordered⟩

theorem ordered_start (p₀ : Nat) (htaken : w.taken = []) (hspool : w.spool = .empty) : Ordered p₀ w := by
  constructor
  · intro b hb
    simp [htaken] at hb
  · intro f hf
    simp [hspool] at hf

/-- From a stored cursor, whatever fails in whichever cycle and however often a batch is
sent again: each batch that the server takes holds wanted entries in the order of the
journal, and none after the first cursor is missing before them. -/
theorem taken_in_order (K : Cursors) (limit : Int) (w : World) (e₀ : Entry Record)
    (he₀ : e₀ ∈ w.journal.entries) (hw₀ : matching e₀.record = true)
    (hcursor : w.cursorFile = some (K.text e₀.position ++ ['\n']))
    (htaken : w.taken = []) (hspool : w.spool = .empty) (cycles : List Cycle) :
    Always apply (InOrder e₀.position) w (trace K limit w cycles) := by
  have hread : readCursor w = K.text e₀.position := by
    rw [readCursor, hcursor]
    exact strip_cursor K e₀.position
  have hdelivered : Delivered K e₀.position w := by
    refine ⟨⟨e₀, he₀, hw₀, hread⟩, ?_⟩
    intro p hp e _ _ hlo hhi
    obtain rfl : e₀.position = p := by simpa [storedPosition_text hread] using hp
    omega
  have hordered := ordered_start e₀.position htaken hspool
  have halways := always_invariant (fun _ _ h he => ordered_apply h he) hordered
    (offers_trace hdelivered hordered limit cycles)
  rw [always_iff] at halways ⊢
  exact fun es hes => (halways es hes).1

/-- Two entries, the first of which goes through the spool. -/
theorem taken_in_order_after_outage :
    Always apply (InOrder 0) oneEntry (trace decimal 500 oneEntry
      [onlySends [sshRecord] true false, onlySends [sshRecord] true true]) :=
  taken_in_order decimal 500 oneEntry ⟨0, sshRecord⟩ (by decide) (by decide) rfl rfl rfl _

end Keywarden.LogOrder
