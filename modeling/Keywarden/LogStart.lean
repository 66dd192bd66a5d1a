import Keywarden.LogShipping

/-!
# An agent without a cursor

Without a cursor file every poll starts behind the last entry of the journal and finds
nothing there, and only a poll that finds something writes the file. What arrives between
the polls is never read.
-/
namespace Keywarden.LogStart

open Rows Text Transitions Journal LogShipping
open AgentHost (goSpace)

variable (K : Cursors) (limit : Int)

/-- A poll in which nothing fails and no entry arrives. -/
structure Quiet (c : Cycle) : Prop where
  listing : c.listing = true
  read : ∀ k, (c.draining k).read = true
  drains : ∀ k, send (c.draining k).sending = true
  remove : ∀ k, (c.draining k).remove = true
  cursorRead : c.cursorRead = true
  opened : c.reading.opened = true
  sought : c.reading.sought = true
  skipped : c.reading.skipped = true
  early : c.reading.early = []
  cancelled : ∀ k, c.reading.cancelled k = false
  arrivals : ∀ k, c.reading.arrivals k = []
  next : ∀ k, c.reading.next k = true
  entry : ∀ k, c.reading.entry k = true
  ships : send c.sending = true
  cursorWrite : c.cursorWrite = true

/-- The world after the first `n` polls. -/
def after (w : World) (polls : Nat → Cycle) : Nat → World
  | 0 => w
  | n + 1 => run apply (after w polls n) (cycle K limit (after w polls n) (polls n))

/-- The events that the `n`-th poll collects. -/
def polled (w : World) (polls : Nat → Cycle) (n : Nat) : Batch :=
  let v := after K limit w polls n
  (collect K (polls n).reading (v.journal.appendAll (polls n).before) (readCursor v) limit).events

/-- The end of the journal when the first `Collect` has returned. -/
def firstEnd (w : World) (polls : Nat → Cycle) : Nat := (after K limit w polls 1).journal.next

/-- Each wanted entry that arrives after the first poll is in the batch of a later one;
these batches together are the first of those entries, in their order and without gaps,
and none of them is larger than the limit. -/
structure Delivers (w : World) (polls : Nat → Cycle) : Prop where
  some_poll : ∀ n, ∀ e ∈ (after K limit w polls n).journal.entries, matching e.record = true →
    firstEnd K limit w polls ≤ e.position → ∃ m, 1 ≤ m ∧ e ∈ polled K limit w polls m
  in_order : ∀ m, (List.range m).flatMap (fun i => polled K limit w polls (i + 1)) <+:
    (after K limit w polls (m + 1)).journal.wantedFrom matching (firstEnd K limit w polls)
  bounded : ∀ m, (polled K limit w polls m).length ≤ batchLimit limit

/-! ## One poll -/

variable {K limit} {w : World} {c : Cycle}

theorem readCursor_none (h : w.cursorFile = none) : readCursor w = [] := by
  rw [readCursor, h]
  rfl

theorem collect_nothing (h : Quiet c) (j : Log Record) : collect K c.reading j [] limit = ⟨[], [], false⟩ := by
  have hstart : startOf K c.reading j [] = j.next := by
    simp only [startOf, seek, ne_eq, not_true_eq_false, if_false, h.sought, if_true, h.skipped,
      Bool.not_true, Bool.false_eq_true, h.early, Log.appendAll_nil, Log.firstFrom_next]
  obtain ⟨room, hroom⟩ : ∃ room, batchLimit limit = room + 1 :=
    Nat.exists_eq_add_one.mpr (batchLimit_pos limit)
  simp only [collect, h.opened, Bool.not_true, Bool.false_eq_true, if_false, hroom, h.early,
    Log.appendAll_nil, hstart, readFrom, h.cancelled, h.arrivals, h.next, Log.firstFrom_next,
    List.append_nil]

theorem cycle_nothing (h : Quiet c) (hnone : w.cursorFile = none) :
    (run apply w (cycle K limit w c)).cursorFile = none ∧
      (run apply w (cycle K limit w c)).journal = w.journal.appendAll c.before := by
  let v : World := { w with journal := w.journal.appendAll c.before }
  have hread : readCursor v = [] := readCursor_none hnone
  obtain ⟨hj, hc⟩ := run_onSpool v (drainSpool_onSpool c v)
  have hjournal : shipJournal K limit c v = [] := by
    simp only [shipJournal, h.cursorRead, hread, collect_nothing h, Bool.not_true, Bool.false_eq_true,
      if_false, or_true, if_true, List.map_nil, List.append_nil]
  have hship : shipLogs K limit c v = (drainSpool c v).1 := by
    simp only [shipLogs, hjournal, ite_self, List.append_nil]
  rw [cycle, run_append, run_arrived, hship]
  exact ⟨hc.trans hnone, hj⟩

/-! ## All polls -/

theorem after_nothing {polls : Nat → Cycle} (h : ∀ n, Quiet (polls n)) (hnone : w.cursorFile = none)
    (n : Nat) : (after K limit w polls n).cursorFile = none := by
  induction n with
  | zero => exact hnone
  | succ n ih => exact (cycle_nothing (h n) ih).1

theorem polled_nothing {polls : Nat → Cycle} (h : ∀ n, Quiet (polls n)) (hnone : w.cursorFile = none)
    (n : Nat) : polled K limit w polls n = [] := by
  simp only [polled, readCursor_none (after_nothing h hnone n), collect_nothing (h n)]

theorem after_journal {polls : Nat → Cycle} (h : ∀ n, Quiet (polls n)) (hnone : w.cursorFile = none)
    (n : Nat) : (after K limit w polls (n + 1)).journal =
      (after K limit w polls n).journal.appendAll (polls n).before :=
  (cycle_nothing (h n) (after_nothing h hnone n)).2

theorem firstEnd_le {polls : Nat → Cycle} (h : ∀ n, Quiet (polls n)) (hnone : w.cursorFile = none)
    (n : Nat) : firstEnd K limit w polls ≤ (after K limit w polls (n + 1)).journal.next := by
  induction n with
  | zero => exact Nat.le_refl _
  | succ n ih =>
    rw [after_journal h hnone (n + 1)]
    exact ih.trans (Log.next_le_appendAll _ _)

/-- What stands behind the end that the first poll saw has arrived since. -/
theorem arrived_later {polls : Nat → Cycle} (h : ∀ n, Quiet (polls n)) (hnone : w.cursorFile = none)
    {n : Nat} {e : Entry Record} (he : e ∈ (after K limit w polls (n + 1)).journal.entries)
    (hend : firstEnd K limit w polls ≤ e.position) : ∃ m, e.record ∈ (polls (m + 1)).before := by
  induction n with
  | zero =>
    have hlt := (after K limit w polls 1).journal.bounded e he
    unfold firstEnd at hend
    omega
  | succ n ih =>
    rw [after_journal h hnone (n + 1)] at he
    obtain hold | ⟨hr, _⟩ := Log.mem_appendAll he
    · exact ih hold
    · exact ⟨n, hr⟩

/-- From no cursor file, with entries only between the polls and nothing that fails: what
arrives after the first poll is delivered if and only if none of it is wanted. -/
theorem delivers_iff (K : Cursors) (limit : Int) (w : World) (polls : Nat → Cycle)
    (hnone : w.cursorFile = none) (hquiet : ∀ n, Quiet (polls n)) :
    Delivers K limit w polls ↔ ∀ n, ∀ r ∈ (polls (n + 1)).before, matching r = false := by
  constructor
  · intro h n r hr
    by_contra hw
    obtain ⟨e, he, rfl, hp⟩ := Log.exists_mem_appendAll
      (l := (after K limit w polls (n + 1)).journal) hr
    rw [← after_journal hquiet hnone (n + 1)] at he
    have hend := (firstEnd_le hquiet hnone n).trans hp
    obtain ⟨m, _, hm⟩ := h.some_poll (n + 2) e he (by simpa using hw) hend
    rw [polled_nothing hquiet hnone] at hm
    cases hm
  · intro h
    refine ⟨fun n e he hw hend => ?_, fun m => ?_, fun m => ?_⟩
    · have hlater : e ∈ (after K limit w polls (n + 1)).journal.entries := by
        rw [after_journal hquiet hnone n]
        exact (Log.extends_appendAll _ _).mem he
      obtain ⟨m, hm⟩ := arrived_later hquiet hnone hlater hend
      rw [h m _ hm] at hw
      cases hw
    · have hall : (List.range m).flatMap (fun i => polled K limit w polls (i + 1)) = [] :=
        List.flatMap_eq_nil_iff.mpr fun i _ => polled_nothing hquiet hnone (i + 1)
      rw [hall]
      exact List.nil_prefix
    · rw [polled_nothing hquiet hnone]
      exact Nat.zero_le _

theorem onlySends_quiet (before : List Record) : Quiet (onlySends before true true) := by
  constructor <;> first | rfl | exact fun _ => rfl

/-- An agent that has just been installed. -/
def installed : World := ⟨.empty, none, .empty, []⟩

/-- An entry that is wanted arrives before the first poll, one that is not after it. -/
theorem delivers_unwanted : Delivers decimal 500 installed fun n =>
    onlySends (if n = 0 then [sshRecord] else [⟨0, ["_SYSTEMD_UNIT=cron.service"]⟩]) true true :=
  (delivers_iff decimal 500 installed _ rfl fun _ => onlySends_quiet _).mpr
    fun _ _ hr => by rw [List.mem_singleton.mp hr]; decide

/-- One entry arrives between the first poll and the second; no poll reads it. -/
theorem never_polled : ¬ Delivers decimal 500 installed fun n =>
    onlySends (if n = 1 then [sshRecord] else []) true true := by
  intro h
  have hquiet : ∀ n, Quiet (onlySends (if n = 1 then [sshRecord] else []) true true) :=
    fun _ => onlySends_quiet _
  obtain ⟨m, _, hm⟩ := h.some_poll 2 ⟨0, sshRecord⟩ (by decide +kernel) (by decide) (Nat.zero_le _)
  rw [polled_nothing hquiet rfl] at hm
  cases hm

end Keywarden.LogStart
