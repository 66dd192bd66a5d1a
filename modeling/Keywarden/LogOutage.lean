import Keywarden.LogShipping

/-!
# Entries that are sent twice

A batch whose send failed is remembered twice: in the spool, and by the cursor that stays
before it. The first send that succeeds afterwards delivers the spooled batch, the second
one delivers its first entry again.
-/
namespace Keywarden.LogOutage

open Rows Text Transitions Journal LogShipping

def entries : Payload → Batch
  | .json batch => batch
  | .torn batch _ => batch

/-- What the server takes while this happens. -/
def deliveries (es : List Effect) : List Payload :=
  es.filterMap fun
    | .sent p true => some p
    | _ => none

/-- No entry is in two of the batches. -/
def AtMostOnce (taken : List Payload) : Prop :=
  taken.Pairwise fun a b => ∀ e ∈ entries a, e ∉ entries b

/-- How the sends went, in their order. -/
def outcomes (es : List Effect) : List Bool :=
  es.filterMap fun
    | .sent _ accepted => some accepted
    | _ => none

/-- How many sends succeed after the first one that fails. -/
def successesAfterFailure : List Bool → Nat
  | [] => 0
  | true :: os => successesAfterFailure os
  | false :: os => os.count true

/-- Only sends fail. -/
structure OnlySendsFail (c : Cycle) : Prop where
  listing : c.listing = true
  read : ∀ k, (c.draining k).read = true
  remove : ∀ k, (c.draining k).remove = true
  cursorRead : c.cursorRead = true
  opened : c.reading.opened = true
  sought : c.reading.sought = true
  skipped : c.reading.skipped = true
  cancelled : ∀ k, c.reading.cancelled k = false
  next : ∀ k, c.reading.next k = true
  entry : ∀ k, c.reading.entry k = true
  saving : c.saving = .done
  cursorWrite : c.cursorWrite = true

/-- The cursor file names an entry that is in the journal and wanted. -/
structure Stored (K : Cursors) (e : Entry Record) (w : World) : Prop where
  mem : e ∈ w.journal.entries
  matching : matching e.record = true
  file : w.cursorFile = some (K.text e.position ++ ['\n'])

/-- A failed send for each batch that waits in the spool. -/
def waiting (w : World) : List Bool := w.spool.toList.map fun _ => false

/-- Where a run may begin: behind the entry of the cursor nothing waits in the spool, or one
batch does, of the first entries there. -/
structure Held (K : Cursors) (e : Entry Record) (w : World) : Prop where
  stored : Stored K e w
  spool : (∀ f, f ∉ w.spool) ∨ ∃ name batch, (∀ f, f ∈ w.spool ↔ f = ⟨name, .json batch⟩) ∧
    batch ≠ [] ∧ batch <+: w.journal.wantedFrom matching (e.position + 1)

/-! ## Outcomes -/

@[simp] theorem outcomes_append (as bs : List Effect) :
    outcomes (as ++ bs) = outcomes as ++ outcomes bs :=
  List.filterMap_append

@[simp] theorem outcomes_arrived (rs : List Record) : outcomes (rs.map .arrived) = [] := by
  simp [outcomes, List.filterMap_map]

theorem successes_of_clean {os : List Bool} (h : false ∉ os) (more : List Bool) :
    successesAfterFailure (os ++ more) = successesAfterFailure more := by
  induction os with
  | nil => rfl
  | cons o os ih =>
    cases o with
    | true => exact ih fun hm => h (List.mem_cons_of_mem _ hm)
    | false => exact absurd List.mem_cons_self h

theorem successes_of_failed {os : List Bool} (h : false ∈ os) (more : List Bool) :
    successesAfterFailure (os ++ more) = successesAfterFailure os + more.count true := by
  induction os with
  | nil => cases h
  | cons o os ih =>
    cases o with
    | true => exact ih ((List.mem_cons.mp h).resolve_left (by decide))
    | false => exact List.count_append

/-! ## The parts of a cycle -/

section Parts

variable {K : Cursors} {w : World} {e₀ : Entry Record} {c : Cycle}

theorem Stored.mono {w' : World} (h : Stored K e₀ w) (hext : w.journal.Extends w'.journal)
    (hcursor : w'.cursorFile = w.cursorFile) : Stored K e₀ w' :=
  ⟨hext.mem h.mem, h.matching, hcursor.trans h.file⟩

theorem Stored.readCursor (h : Stored K e₀ w) : readCursor w = K.text e₀.position := by
  rw [LogShipping.readCursor, h.file]
  exact strip_cursor K e₀.position

theorem readFrom_works {r : Reading} (hc : ∀ k, r.cancelled k = false) (hn : ∀ k, r.next k = true)
    (he : ∀ k, r.entry k = true) (k room : Nat) (j : Log Record) (p : Nat) :
    (readFrom r k room j p).failed = false ∧
      (0 < room → (readFrom r k room j p).events = [] →
        (j.appendAll (readFrom r k room j p).arrived).wantedFrom matching p = []) := by
  induction room generalizing k j p with
  | zero => exact ⟨rfl, fun h => absurd h (Nat.lt_irrefl _)⟩
  | succ room ih =>
    unfold readFrom
    simp only [hc, hn, he, Bool.not_true, Bool.false_eq_true, if_false]
    split
    · next hnone => exact ⟨rfl, fun _ _ => Log.wantedFrom_of_none hnone⟩
    · exact ⟨(ih _ _ _).1, fun _ h => absurd h (List.cons_ne_nil _ _)⟩

/-- When nothing fails the reader starts right behind the stored entry. -/
theorem startOf_eq (h : OnlySendsFail c) (hs : Stored K e₀ w) :
    startOf K c.reading w.journal (K.text e₀.position) = e₀.position + 1 := by
  unfold startOf seek
  simp only [K.text_ne_nil, ne_eq, not_false_eq_true, if_true, h.sought, K.locate_text, h.skipped,
    Bool.not_true, Bool.false_eq_true, if_false,
    Log.firstFrom_position ((Log.extends_appendAll w.journal c.reading.early).mem hs.mem) hs.matching]

/-- The collection of a cycle in which only sends fail. -/
theorem collect_works (limit : Int) (h : OnlySendsFail c) (hs : Stored K e₀ w) :
    let r := collect K c.reading w.journal (K.text e₀.position) limit
    r.failed = false ∧
      r.events <+: (w.journal.appendAll r.arrived).wantedFrom matching (e₀.position + 1) ∧
      (r.events = [] → (w.journal.appendAll r.arrived).wantedFrom matching (e₀.position + 1) = []) := by
  intro r
  have hpre := collect_prefix K c.reading w.journal (K.text e₀.position) limit
  rw [startOf_eq h hs] at hpre
  have hworks := readFrom_works h.cancelled h.next h.entry 0 (batchLimit limit)
    (w.journal.appendAll c.reading.early) (e₀.position + 1)
  have hr : r = { readFrom c.reading 0 (batchLimit limit) (w.journal.appendAll c.reading.early)
      (e₀.position + 1) with arrived := c.reading.early ++ (readFrom c.reading 0 (batchLimit limit)
        (w.journal.appendAll c.reading.early) (e₀.position + 1)).arrived } := by
    simp only [r, collect, h.opened, Bool.not_true, Bool.false_eq_true, if_false, startOf_eq h hs]
  refine ⟨by rw [hr]; exact hworks.1, hpre, ?_⟩
  rw [hr, append_journal]
  exact hworks.2 (batchLimit_pos limit)

theorem saved_done {t : Table SpoolFile} (hempty : ∀ f, f ∉ t) (tmp name : List Char) (p : Payload)
    (g : SpoolFile) : g ∈ rename tmp name (t.upsert ⟨tmp, p⟩) ↔ g = ⟨name, p⟩ := by
  have hfind : (t.upsert ⟨tmp, p⟩).find tmp = some ⟨tmp, p⟩ := by
    rw [Table.find_upsert]
    exact if_pos rfl
  have honly : ∀ f, f ∉ (t.upsert ⟨tmp, p⟩).delete tmp := by
    intro f hf
    obtain ⟨hf, hne⟩ := (Table.mem_delete _ _ _).mp hf
    obtain rfl | ⟨hf, _⟩ := (Table.mem_upsert _ _ _).mp hf
    · exact hne rfl
    · exact hempty f hf
  rw [rename, hfind, Table.mem_upsert]
  exact or_iff_left fun h => honly g h.1

/-- How shipping goes on from an empty spool: there is nothing to ship, or a batch of
the first entries behind the cursor is taken, or it is spooled. -/
inductive Shipped (K : Cursors) (e₀ : Entry Record) (taken : List Payload) (w' : World) :
    List Bool → Prop
  | nothing : w'.taken = taken → Stored K e₀ w' → (∀ f, f ∉ w'.spool) →
      w'.journal.wantedFrom matching (e₀.position + 1) = [] → Shipped K e₀ taken w' []
  | accepted (batch : Batch) (e : Entry Record) : w'.taken = taken ++ [.json batch] →
      batch.getLast? = some e → batch <+: w'.journal.wantedFrom matching (e₀.position + 1) →
      Stored K e w' → (∀ f, f ∉ w'.spool) → Shipped K e₀ taken w' [true]
  | spooled (batch : Batch) (name : List Char) : w'.taken = taken → batch ≠ [] →
      batch <+: w'.journal.wantedFrom matching (e₀.position + 1) → Stored K e₀ w' →
      (∀ f, f ∈ w'.spool ↔ f = ⟨name, .json batch⟩) → Shipped K e₀ taken w' [false]

theorem ship_shipped (h : OnlySendsFail c) (hs : Stored K e₀ w) (hempty : ∀ f, f ∉ w.spool)
    {batch : Batch} (hne : batch ≠ [])
    (hpre : batch <+: w.journal.wantedFrom matching (e₀.position + 1)) :
    Shipped K e₀ w.taken (run apply w (ship K c batch)) (outcomes (ship K c batch)) := by
  obtain ⟨e, he⟩ : ∃ e, batch.getLast? = some e := ⟨_, List.getLast?_eq_some_getLast hne⟩
  obtain ⟨hej, _, hew⟩ := Log.mem_wantedFrom.mp (hpre.subset (List.mem_of_getLast? he))
  unfold ship
  cases hsend : send c.sending with
  | true =>
    simp only [if_true, nextCursor, he, writeCursor, K.text_ne_nil, h.cursorWrite, Bool.true_eq_false,
      or_self, if_false]
    exact .accepted batch e rfl he hpre ⟨hej, hew, rfl⟩ hempty
  | false =>
    simp only [Bool.false_eq_true, if_false, saveSpool, h.saving]
    exact .spooled batch _ rfl hne hpre (hs.mono (Log.Extends.refl _) rfl)
      (saved_done hempty _ _ (.json batch))

theorem ship_journal (w : World) (c : Cycle) (batch : Batch) :
    (run apply w (ship K c batch)).journal = w.journal := by
  unfold ship
  split
  · unfold writeCursor
    split <;> rfl
  · have hsave := run_onSpool (apply w (.sent (.json batch) false))
      (saveSpool_onSpool c.saving c.unixNano batch)
    exact hsave.1

theorem shipJournal_shipped (limit : Int) (h : OnlySendsFail c) (hs : Stored K e₀ w)
    (hempty : ∀ f, f ∉ w.spool) {v : World} (hjournal : v.journal = w.journal)
    (hcursor : v.cursorFile = w.cursorFile) :
    w.journal.Extends (run apply w (shipJournal K limit c v)).journal ∧
      Shipped K e₀ w.taken (run apply w (shipJournal K limit c v)) (outcomes (shipJournal K limit c v)) := by
  have hv : Stored K e₀ v := hs.mono (by rw [hjournal]; exact Log.Extends.refl _) hcursor
  have hread : readCursor v = K.text e₀.position := hv.readCursor
  obtain ⟨hfailed, hpre, hnone⟩ := collect_works limit h hs
  let r := collect K c.reading w.journal (K.text e₀.position) limit
  let w₁ : World := { w with journal := w.journal.appendAll r.arrived }
  have hext : w.journal.Extends w₁.journal := Log.extends_appendAll _ _
  have hs₁ : Stored K e₀ w₁ := hs.mono hext rfl
  simp only [shipJournal, h.cursorRead, Bool.not_true, Bool.false_eq_true, if_false, hjournal, hread,
    hfailed, false_or, run_append, run_arrived, outcomes_append, outcomes_arrived, List.nil_append]
  change w.journal.Extends (run apply w₁ (if r.events = [] then [] else ship K c r.events)).journal ∧
    Shipped K e₀ w.taken (run apply w₁ (if r.events = [] then [] else ship K c r.events))
      (outcomes (if r.events = [] then [] else ship K c r.events))
  by_cases hne : r.events = []
  · rw [if_pos hne]
    exact ⟨hext, .nothing rfl hs₁ hempty (hnone hne)⟩
  · rw [if_neg hne]
    exact ⟨by rw [ship_journal]; exact hext, ship_shipped (w := w₁) h hs₁ hempty hne hpre⟩

/-! ## The stages of a run -/

/-- Where a run stands that began with an empty spool: no send has failed yet; one has and
its batch waits in the spool; that batch was taken later and the next one, from the same
cursor, waits there now; or an entry was taken twice. -/
inductive Stage (K : Cursors) (w : World) (os : List Bool) : Prop
  | clean (e : Entry Record) : false ∉ os → Stored K e w → (∀ f, f ∉ w.spool) →
      (∀ p ∈ w.taken, ∀ x ∈ entries p, x.position ≤ e.position) → AtMostOnce w.taken → Stage K w os
  | failed (e : Entry Record) (name : List Char) (batch : Batch) : false ∈ os →
      successesAfterFailure os = 0 → Stored K e w → (∀ f, f ∈ w.spool ↔ f = ⟨name, .json batch⟩) →
      batch ≠ [] → batch <+: w.journal.wantedFrom matching (e.position + 1) →
      (∀ p ∈ w.taken, ∀ x ∈ entries p, x.position ≤ e.position) → AtMostOnce w.taken → Stage K w os
  | drained (e : Entry Record) (name : List Char) (old batch : Batch) : false ∈ os →
      successesAfterFailure os = 1 → Stored K e w → (∀ f, f ∈ w.spool ↔ f = ⟨name, .json batch⟩) →
      .json old ∈ w.taken → old ≠ [] → old <+: w.journal.wantedFrom matching (e.position + 1) →
      batch ≠ [] → batch <+: w.journal.wantedFrom matching (e.position + 1) → AtMostOnce w.taken →
      Stage K w os
  | twice : false ∈ os → 2 ≤ successesAfterFailure os → ¬ AtMostOnce w.taken → Stage K w os

theorem Stage.atMostOnce_iff {os : List Bool} (h : Stage K w os) :
    AtMostOnce w.taken ↔ successesAfterFailure os ≤ 1 := by
  cases h with
  | clean e hos _ _ _ honce =>
    have hzero := successes_of_clean hos []
    rw [List.append_nil] at hzero
    exact iff_of_true honce (by rw [hzero]; exact Nat.zero_le 1)
  | failed e name batch _ hzero _ _ _ _ _ honce => exact iff_of_true honce (by omega)
  | drained e name old batch _ hone _ _ _ _ _ _ _ honce => exact iff_of_true honce (by omega)
  | twice _ htwo hdup => exact iff_of_false hdup (by omega)

/-- Entries that arrive change no stage. -/
theorem Stage.mono {os : List Bool} (h : Stage K w os) {w' : World}
    (hext : w.journal.Extends w'.journal) (hcursor : w'.cursorFile = w.cursorFile)
    (hspool : w'.spool = w.spool) (htaken : w'.taken = w.taken) : Stage K w' os := by
  cases h with
  | clean e hos hs hempty hpast honce =>
    exact .clean e hos (hs.mono hext hcursor) (by rw [hspool]; exact hempty)
      (by rw [htaken]; exact hpast) (by rw [AtMostOnce, htaken]; exact honce)
  | failed e name batch hos hzero hs hone hne hpre hpast honce =>
    exact .failed e name batch hos hzero (hs.mono hext hcursor) (by rw [hspool]; exact hone) hne
      (hpre.trans (hext.wantedFrom _)) (by rw [htaken]; exact hpast)
      (by rw [AtMostOnce, htaken]; exact honce)
  | drained e name old batch hos hsucc hs hone hold holdne holdpre hne hpre honce =>
    exact .drained e name old batch hos hsucc (hs.mono hext hcursor) (by rw [hspool]; exact hone)
      (by rw [htaken]; exact hold) holdne (holdpre.trans (hext.wantedFrom _)) hne
      (hpre.trans (hext.wantedFrom _)) (by rw [AtMostOnce, htaken]; exact honce)
  | twice hos htwo hdup => exact .twice hos htwo (by rw [AtMostOnce, htaken]; exact hdup)

/-- Two batches that begin at one cursor share their first entry. -/
theorem not_atMostOnce_of_shared {old batch : Batch} {l : List (Entry Record)}
    (hold : .json old ∈ w.taken) (holdne : old ≠ []) (holdpre : old <+: l) (hne : batch ≠ [])
    (hpre : batch <+: l) {w' : World} (htaken : w'.taken = w.taken ++ [.json batch]) :
    ¬ AtMostOnce w'.taken := by
  intro honce
  rw [AtMostOnce, htaken, List.pairwise_append] at honce
  obtain ⟨x, xs, rfl⟩ := List.exists_cons_of_ne_nil holdne
  obtain ⟨y, ys, rfl⟩ := List.exists_cons_of_ne_nil hne
  obtain ⟨more, rfl⟩ := holdpre
  obtain ⟨rfl, _⟩ := List.cons_prefix_cons.mp hpre
  exact honce.2.2 _ hold _ (List.mem_singleton_self _) _ List.mem_cons_self List.mem_cons_self

theorem atMostOnce_append {e : Entry Record} {batch : Batch} {j : Log Record} (honce : AtMostOnce w.taken)
    (hpast : ∀ p ∈ w.taken, ∀ x ∈ entries p, x.position ≤ e.position)
    (hpre : batch <+: j.wantedFrom matching (e.position + 1)) {w' : World}
    (htaken : w'.taken = w.taken ++ [.json batch]) : AtMostOnce w'.taken := by
  rw [AtMostOnce, htaken, List.pairwise_append]
  refine ⟨honce, List.pairwise_singleton _ _, ?_⟩
  intro p hp q hq x hx hxq
  rw [List.mem_singleton.mp hq] at hxq
  have hlo := hpast p hp x hx
  have hhi := (Log.mem_wantedFrom.mp (hpre.subset hxq)).2.1
  omega

theorem wantedFrom_ne_nil {batch : Batch} {l : List (Entry Record)} (hne : batch ≠ [])
    (hpre : batch <+: l) : l ≠ [] :=
  fun h => hne (List.prefix_nil.mp (h ▸ hpre))

theorem le_last {batch : Batch} {j : Log Record} {p : Nat} {e x : Entry Record}
    (hpre : batch <+: j.wantedFrom matching p) (hlast : batch.getLast? = some e) (hx : x ∈ batch) :
    x.position ≤ e.position := by
  have hsorted : batch.Pairwise fun a b => a.position < b.position :=
    j.ordered.sublist (hpre.sublist.trans List.filter_sublist)
  obtain ⟨init, rfl⟩ := List.getLast?_eq_some_iff.mp hlast
  obtain hx | hx := List.mem_append.mp hx
  · exact Nat.le_of_lt ((List.pairwise_append.mp hsorted).2.2 x hx e (List.mem_singleton_self _))
  · rw [List.mem_singleton.mp hx]

theorem stage_of_clean {os o : List Bool} {w' : World} (hos : false ∉ os)
    (hpast : ∀ p ∈ w.taken, ∀ x ∈ entries p, x.position ≤ e₀.position) (honce : AtMostOnce w.taken)
    (h : Shipped K e₀ w.taken w' o) : Stage K w' (os ++ o) := by
  have hkeep : w'.taken = w.taken → (∀ p ∈ w'.taken, ∀ x ∈ entries p, x.position ≤ e₀.position) ∧
      AtMostOnce w'.taken := fun htaken => by rw [AtMostOnce, htaken]; exact ⟨hpast, honce⟩
  cases h with
  | nothing htaken hs hempty _ =>
    obtain ⟨hpast', honce'⟩ := hkeep htaken
    exact .clean e₀ (by simpa using hos) hs hempty hpast' honce'
  | accepted batch e htaken hlast hpre hs hempty =>
    refine .clean e (by simpa using hos) hs hempty ?_ (atMostOnce_append honce hpast hpre htaken)
    intro p hp x hx
    rw [htaken] at hp
    obtain hp | hp := List.mem_append.mp hp
    · have hold := hpast p hp x hx
      have hnew := (Log.mem_wantedFrom.mp (hpre.subset (List.mem_of_getLast? hlast))).2.1
      omega
    · rw [List.mem_singleton.mp hp] at hx
      exact le_last hpre hlast hx
  | spooled batch name htaken hne hpre hs hone =>
    obtain ⟨hpast', honce'⟩ := hkeep htaken
    exact .failed e₀ name batch (by simp) (by rw [successes_of_clean hos]; rfl) hs hone hne hpre
      hpast' honce'

/-- The first entry behind the cursor has been taken, so taking a batch from there on
takes it twice. -/
theorem stage_of_drained {os o : List Bool} {w' : World} {old : Batch} (hos : false ∈ os)
    (hsucc : successesAfterFailure os = 1) (hold : .json old ∈ w.taken) (holdne : old ≠ [])
    (holdpre : old <+: w.journal.wantedFrom matching (e₀.position + 1)) (honce : AtMostOnce w.taken)
    (hext : w.journal.Extends w'.journal) (h : Shipped K e₀ w.taken w' o) : Stage K w' (os ++ o) := by
  have holdpre' := holdpre.trans (hext.wantedFrom (e₀.position + 1))
  cases h with
  | nothing htaken hs hempty hnone => exact absurd hnone (wantedFrom_ne_nil holdne holdpre')
  | accepted batch e htaken hlast hpre hs hempty =>
    have hne : batch ≠ [] := by
      rintro rfl
      cases hlast
    refine .twice (List.mem_append_left _ hos) ?_
      (not_atMostOnce_of_shared hold holdne holdpre' hne hpre htaken)
    rw [successes_of_failed hos, hsucc]
    exact Nat.le_refl _
  | spooled batch name htaken hne hpre hs hone =>
    exact .drained e₀ name old batch (List.mem_append_left _ hos)
      (by rw [successes_of_failed hos, hsucc]; rfl) hs hone (by rw [htaken]; exact hold) holdne
      holdpre' hne hpre (by rw [AtMostOnce, htaken]; exact honce)

theorem drainSpool_empty (h : OnlySendsFail c) (hempty : ∀ f, f ∉ w.spool) :
    drainSpool c w = ([], true) := by
  have hnone : spoolFiles w.spool = [] := by
    rw [spoolFiles, Table.toList_eq_nil hempty]
    rfl
  simp only [drainSpool, h.listing, Bool.not_true, Bool.false_eq_true, if_false, hnone, drainFrom]

theorem drainSpool_one (h : OnlySendsFail c) {f : SpoolFile} (hone : ∀ g, g ∈ w.spool ↔ g = f) :
    drainSpool c w = if send (c.draining 0).sending
      then ([.sent f.payload true, .removed f.name], true) else ([.sent f.payload false], false) := by
  have hfiles : spoolFiles w.spool = [f] := by
    rw [spoolFiles, Table.toList_eq_singleton hone]
    rfl
  simp only [drainSpool, h.listing, Bool.not_true, Bool.false_eq_true, if_false, hfiles, drainFrom,
    h.read, h.remove]
  cases send (c.draining 0).sending <;> rfl

/-- After the only spooled batch has been taken the spool is empty. -/
theorem drained_empty {f : SpoolFile} (hone : ∀ g, g ∈ w.spool ↔ g = f) (g : SpoolFile) :
    g ∉ w.spool.delete f.name := by
  intro hg
  obtain ⟨hg, hne⟩ := (Table.mem_delete _ _ _).mp hg
  rw [(hone g).mp hg] at hne
  exact hne rfl

theorem Stage.twice_run {os : List Bool} (hos : false ∈ os) (htwo : 2 ≤ successesAfterFailure os)
    (hdup : ¬ AtMostOnce w.taken) (es : List Effect) : Stage K (run apply w es) (os ++ outcomes es) := by
  refine .twice (List.mem_append_left _ hos) ?_ fun honce => ?_
  · rw [successes_of_failed hos]
    omega
  · exact hdup (honce.sublist (taken_run w es).sublist)

theorem Stage.shipLogs {os : List Bool} (hstage : Stage K w os) (limit : Int) (h : OnlySendsFail c) :
    Stage K (run apply w (shipLogs K limit c w)) (os ++ outcomes (shipLogs K limit c w)) := by
  unfold LogShipping.shipLogs
  cases hstage with
  | clean e hos hs hempty hpast honce =>
    simp only [drainSpool_empty h hempty, if_true, List.nil_append]
    exact stage_of_clean hos hpast honce (shipJournal_shipped limit h hs hempty rfl rfl).2
  | failed e name batch hos hzero hs hone hne hpre hpast honce =>
    simp only [drainSpool_one h hone]
    cases hsend : send (c.draining 0).sending with
    | false =>
      refine .failed e name batch (List.mem_append_left _ hos) ?_ hs hone hne hpre hpast honce
      rw [successes_of_failed hos, hzero]
      rfl
    | true =>
      let w₁ : World :=
        { w with spool := w.spool.delete name, taken := w.taken ++ [.json batch] }
      have hs₁ : Stored K e w₁ := hs.mono (Log.Extends.refl _) rfl
      obtain ⟨hext, hship⟩ := shipJournal_shipped limit h hs₁ (drained_empty hone)
        (v := w) rfl rfl
      have honce₁ : AtMostOnce w₁.taken := atMostOnce_append honce hpast hpre rfl
      have hsucc : successesAfterFailure (os ++ [true]) = 1 := by
        rw [successes_of_failed hos, hzero]
        rfl
      have hdrained := stage_of_drained (w := w₁) (List.mem_append_left [true] hos) hsucc
        (List.mem_append_right _ (List.mem_singleton_self _)) hne hpre honce₁ hext hship
      rw [List.append_assoc] at hdrained
      exact hdrained
  | drained e name old batch hos hsucc hs hone hold holdne holdpre hne hpre honce =>
    simp only [drainSpool_one h hone]
    cases hsend : send (c.draining 0).sending with
    | false =>
      refine .drained e name old batch (List.mem_append_left _ hos) ?_ hs hone hold holdne holdpre
        hne hpre honce
      rw [successes_of_failed hos, hsucc]
      rfl
    | true =>
      let w₁ : World :=
        { w with spool := w.spool.delete name, taken := w.taken ++ [.json batch] }
      have hdup : ¬ AtMostOnce w₁.taken := not_atMostOnce_of_shared hold holdne holdpre hne hpre rfl
      have htwo : 2 ≤ successesAfterFailure (os ++ [true]) := by
        rw [successes_of_failed hos, hsucc]
        exact Nat.le_refl _
      have hrun := Stage.twice_run (K := K) (List.mem_append_left [true] hos) htwo hdup
        (shipJournal K limit c w)
      rw [List.append_assoc] at hrun
      exact hrun
  | twice hos htwo hdup => exact Stage.twice_run hos htwo hdup _

theorem Stage.cycle {os : List Bool} (hstage : Stage K w os) (limit : Int) (h : OnlySendsFail c) :
    Stage K (run apply w (cycle K limit w c)) (os ++ outcomes (cycle K limit w c)) := by
  rw [LogShipping.cycle, run_append, run_arrived, outcomes_append, outcomes_arrived, List.nil_append]
  have hbefore : Stage K { w with journal := w.journal.appendAll c.before } os :=
    hstage.mono (Log.extends_appendAll _ _) rfl rfl rfl
  exact hbefore.shipLogs limit h

theorem Stage.trace {os : List Bool} (hstage : Stage K w os) (limit : Int) {cs : List Cycle}
    (h : ∀ c ∈ cs, OnlySendsFail c) :
    Stage K (run apply w (trace K limit w cs)) (os ++ outcomes (trace K limit w cs)) := by
  induction cs generalizing w os with
  | nil =>
    rw [LogShipping.trace, outcomes, List.filterMap_nil, List.append_nil]
    exact hstage
  | cons c cs ih =>
    rw [LogShipping.trace, run_append, outcomes_append, ← List.append_assoc]
    exact ih (hstage.cycle limit (h c List.mem_cons_self)) fun d hd => h d (List.mem_cons_of_mem _ hd)

/-! ## Where a run may begin -/

theorem Shipped.held {o : List Bool} {taken : List Payload} (h : Shipped K e₀ taken w o) :
    ∃ e, Held K e w := by
  cases h with
  | nothing _ hs hempty _ => exact ⟨e₀, hs, .inl hempty⟩
  | accepted batch e _ _ _ hs hempty => exact ⟨e, hs, .inl hempty⟩
  | spooled batch name _ hne hpre hs hone => exact ⟨e₀, hs, .inr ⟨name, batch, hone, hne, hpre⟩⟩

theorem Held.mono {w' : World} (h : Held K e₀ w) (hext : w.journal.Extends w'.journal)
    (hcursor : w'.cursorFile = w.cursorFile) (hspool : w'.spool = w.spool) : Held K e₀ w' := by
  refine ⟨h.stored.mono hext hcursor, ?_⟩
  rw [hspool]
  refine h.spool.imp_right ?_
  rintro ⟨name, batch, hone, hne, hpre⟩
  exact ⟨name, batch, hone, hne, hpre.trans (hext.wantedFrom _)⟩

theorem Held.shipLogs (hheld : Held K e₀ w) (limit : Int) (h : OnlySendsFail c) :
    ∃ e, Held K e (run apply w (shipLogs K limit c w)) := by
  unfold LogShipping.shipLogs
  obtain ⟨hs, hempty | ⟨name, batch, hone, hne, hpre⟩⟩ := hheld
  · simp only [drainSpool_empty h hempty, if_true, List.nil_append]
    exact (shipJournal_shipped limit h hs hempty rfl rfl).2.held
  · simp only [drainSpool_one h hone]
    cases hsend : send (c.draining 0).sending with
    | false => exact ⟨e₀, hs, .inr ⟨name, batch, hone, hne, hpre⟩⟩
    | true =>
      let w₁ : World :=
        { w with spool := w.spool.delete name, taken := w.taken ++ [.json batch] }
      have hs₁ : Stored K e₀ w₁ := hs.mono (Log.Extends.refl _) rfl
      exact (shipJournal_shipped limit h hs₁ (drained_empty hone) (v := w) rfl rfl).2.held

/-- Cycles in which only sends fail lead from such a state to such a state. -/
theorem Held.trace (hheld : Held K e₀ w) (limit : Int) {cs : List Cycle}
    (h : ∀ c ∈ cs, OnlySendsFail c) : ∃ e, Held K e (run apply w (trace K limit w cs)) := by
  induction cs generalizing w e₀ with
  | nil => exact ⟨e₀, hheld⟩
  | cons c cs ih =>
    let v : World := { w with journal := w.journal.appendAll c.before }
    have hv : Held K e₀ v := hheld.mono (Log.extends_appendAll _ _) rfl rfl
    obtain ⟨e, he⟩ := hv.shipLogs limit (h c List.mem_cons_self)
    have hnext : Held K e (run apply w (cycle K limit w c)) := by
      rw [LogShipping.cycle, run_append, run_arrived]
      exact he
    rw [LogShipping.trace, run_append]
    exact ih hnext fun d hd => h d (List.mem_cons_of_mem _ hd)

theorem waiting_empty (hempty : ∀ f, f ∉ w.spool) : waiting w = [] := by
  rw [waiting, Table.toList_eq_nil hempty]
  rfl

theorem waiting_one {f : SpoolFile} (hone : ∀ g, g ∈ w.spool ↔ g = f) : waiting w = [false] := by
  rw [waiting, Table.toList_eq_singleton hone]
  rfl

/-- A run that the server has taken nothing of yet. -/
theorem Held.stage (h : Held K e₀ w) (htaken : w.taken = []) : Stage K w (waiting w) := by
  have hpast : ∀ p ∈ w.taken, ∀ x ∈ entries p, x.position ≤ e₀.position := by
    rw [htaken]
    intro p hp
    cases hp
  have honce : AtMostOnce w.taken := by
    rw [htaken]
    exact List.Pairwise.nil
  obtain ⟨hs, hempty | ⟨name, batch, hone, hne, hpre⟩⟩ := h
  · rw [waiting_empty hempty]
    exact .clean e₀ List.not_mem_nil hs hempty hpast honce
  · rw [waiting_one hone]
    exact .failed e₀ name batch List.mem_cons_self rfl hs hone hne hpre hpast honce

/-! ## What the server takes in a run -/

theorem apply_deliveries (w : World) (ts : List Payload) (a : Effect) :
    apply { w with taken := ts } a = { apply w a with taken := ts ++ deliveries [a] } := by
  cases a with
  | sent p accepted => cases accepted <;> simp [apply, deliveries]
  | _ => simp [apply, deliveries]

/-- What was taken before makes no difference to what happens. -/
theorem run_deliveries (w : World) (ts : List Payload) (es : List Effect) :
    run apply { w with taken := ts } es = { run apply w es with taken := ts ++ deliveries es } := by
  induction es generalizing w ts with
  | nil => simp [deliveries]
  | cons a es ih =>
    have hcons : deliveries (a :: es) = deliveries [a] ++ deliveries es :=
      List.filterMap_append (l := [a])
    rw [run_cons, run_cons, apply_deliveries, ih, List.append_assoc, hcons]

theorem trace_taken (limit : Int) (w : World) (ts : List Payload) (cs : List Cycle) :
    trace K limit { w with taken := ts } cs = trace K limit w cs := by
  induction cs generalizing w ts with
  | nil => rfl
  | cons c cs ih =>
    have hcycle : cycle K limit { w with taken := ts } c = cycle K limit w c := rfl
    rw [LogShipping.trace, LogShipping.trace, hcycle, run_deliveries, ih]

end Parts

/-! ## The spool when a cursor is written -/

theorem drainFrom_removes (d : Nat → Draining) (k : Nat) (files : List SpoolFile) (w : World)
    (hok : (drainFrom d k files).2 = true) {g : SpoolFile}
    (hg : g ∈ (run apply w (drainFrom d k files).1).spool) :
    g ∈ w.spool ∧ ∀ f ∈ files, g.name ≠ f.name := by
  induction files generalizing k w with
  | nil => exact ⟨hg, fun f hf => by cases hf⟩
  | cons f files ih =>
    unfold drainFrom at hok hg
    split at hok
    · cases hok
    split at hok
    · cases hok
    split at hok
    · cases hok
    · next hread hsend hremove =>
      rw [if_neg hread, if_neg hsend, if_neg hremove] at hg
      obtain ⟨hmem, hnames⟩ := ih (k + 1) _ hok hg
      obtain ⟨hmem, hne⟩ := (Table.mem_delete _ _ _).mp hmem
      refine ⟨hmem, fun f' hf' => ?_⟩
      obtain rfl | hf' := List.mem_cons.mp hf'
      · exact hne
      · exact hnames f' hf'

theorem drainSpool_empties {w : World} {c : Cycle} (hok : (drainSpool c w).2 = true) (g : SpoolFile) :
    g ∉ (run apply w (drainSpool c w).1).spool := by
  intro hg
  unfold drainSpool at hok hg
  split at hok
  · cases hok
  · next hlisting =>
    rw [if_neg hlisting] at hg
    obtain ⟨hmem, hne⟩ := drainFrom_removes c.draining 0 _ w hok hg
    exact hne g ((List.mem_insertionSort _).mpr ((Table.mem_toList _ _).mpr hmem)) rfl

/-- The spool is empty at every write of the cursor. -/
def WrittenWhenEmpty (w : World) (e : Effect) : Prop :=
  ∀ text, e = .cursorWritten text → ∀ f, f ∉ w.spool

theorem writtenWhenEmpty_of_none (w : World) {es : List Effect}
    (h : ∀ e ∈ es, ∀ text, e ≠ .cursorWritten text) : Along apply WrittenWhenEmpty w es :=
  along_of_along (I := fun _ => True) (fun _ _ _ _ => trivial)
    (fun _ _ _ he text heq => absurd heq (he text)) trivial (along_of_mem w h)

theorem ship_writtenWhenEmpty (K : Cursors) (c : Cycle) (batch : Batch) {w : World}
    (hempty : ∀ f, f ∉ w.spool) : Along apply WrittenWhenEmpty w (ship K c batch) := by
  unfold ship
  split
  · refine ⟨fun text h => (by cases h), ?_⟩
    unfold writeCursor
    split
    · trivial
    · exact ⟨fun _ _ => hempty, trivial⟩
  · refine writtenWhenEmpty_of_none w ?_
    rintro e he text rfl
    obtain he | he := List.mem_cons.mp he
    · cases he
    · cases saveSpool_onSpool _ _ _ _ he

/-- So, whatever fails, a run from a cursor that was just written begins with an empty
spool. -/
theorem cursor_spool_empty (K : Cursors) (limit : Int) (w : World) (c : Cycle) :
    Along apply WrittenWhenEmpty w (cycle K limit w c) := by
  have harrived : ∀ rs : List Record, ∀ e ∈ rs.map Effect.arrived, ∀ text, e ≠ .cursorWritten text := by
    intro rs e he text hn
    obtain ⟨a, _, rfl⟩ := List.mem_map.mp he
    cases hn
  refine along_append.mpr ⟨writtenWhenEmpty_of_none w (harrived _), ?_⟩
  rw [run_arrived]
  let v : World := { w with journal := w.journal.appendAll c.before }
  have hdrain : ∀ e ∈ (drainSpool c v).1, ∀ text, e ≠ .cursorWritten text := by
    rintro e he text rfl
    cases drainSpool_onSpool c v _ he
  refine along_append.mpr ⟨writtenWhenEmpty_of_none v hdrain, ?_⟩
  split
  · next hok =>
    unfold shipJournal
    split
    · trivial
    · refine along_append.mpr ⟨writtenWhenEmpty_of_none _ (harrived _), ?_⟩
      rw [run_arrived]
      split
      · trivial
      · exact ship_writtenWhenEmpty K c _ (drainSpool_empties hok)
  · trivial

/-- From a stored cursor, with nothing but sends that fail: no entry is taken twice if and
only if at most one send succeeds after the first that fails, a batch that waits in the spool
being one that has failed. Where the run ends another one may begin. -/
theorem at_most_once_iff (K : Cursors) (limit : Int) (w : World) (e₀ : Entry Record)
    (hheld : Held K e₀ w) (cycles : List Cycle) (honly : ∀ c ∈ cycles, OnlySendsFail c) :
    (AtMostOnce (deliveries (trace K limit w cycles)) ↔
      successesAfterFailure (waiting w ++ outcomes (trace K limit w cycles)) ≤ 1) ∧
    ∃ e, Held K e (run apply w (trace K limit w cycles)) := by
  refine ⟨?_, hheld.trace limit honly⟩
  let v : World := { w with taken := [] }
  have hv : Held K e₀ v := hheld.mono (Log.Extends.refl _) rfl rfl
  have hstage := (hv.stage rfl).trace limit honly
  have htaken : (run apply v (trace K limit w cycles)).taken = deliveries (trace K limit w cycles) := by
    rw [run_deliveries, List.nil_append]
  rw [trace_taken] at hstage
  rw [← htaken]
  exact hstage.atMostOnce_iff

theorem onlySends_works (before : List Record) (drains ships : Bool) :
    OnlySendsFail (onlySends before drains ships) := by
  constructor <;> first | rfl | exact fun _ => rfl

theorem oneEntry_stored : Stored decimal ⟨0, sshRecord⟩ oneEntry :=
  ⟨List.mem_singleton_self _, rfl, rfl⟩

theorem oneEntry_held : Held decimal ⟨0, sshRecord⟩ oneEntry :=
  ⟨oneEntry_stored, .inl (Table.not_mem_empty ·)⟩

/-- A send fails and the spooled batch goes through, but nothing more arrives. -/
theorem at_most_once_while_failing :
    AtMostOnce (deliveries (trace decimal 500 oneEntry
      [onlySends [sshRecord] true false, onlySends [] false true])) :=
  (at_most_once_iff decimal 500 oneEntry ⟨0, sshRecord⟩ oneEntry_held
    [onlySends [sshRecord] true false, onlySends [] false true]
    (by simp [onlySends_works])).1.mpr (by decide +kernel)

/-- A send fails, then everything works, and the entry that arrived is taken twice. -/
theorem taken_twice : ¬ AtMostOnce (deliveries (trace decimal 500 oneEntry
    [onlySends [sshRecord] true false, onlySends [] true true])) := by
  have htaken : deliveries (trace decimal 500 oneEntry
      [onlySends [sshRecord] true false, onlySends [] true true]) =
      [.json [⟨1, sshRecord⟩], .json [⟨1, sshRecord⟩]] := by decide +kernel
  intro h
  rw [AtMostOnce, htaken] at h
  exact (List.pairwise_cons.mp h).1 _ (List.mem_singleton_self _) _ (List.mem_singleton_self _)
    (List.mem_singleton_self _)

end Keywarden.LogOutage
