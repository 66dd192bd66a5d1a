import Keywarden.LogDelivery
import Keywarden.LogEvents
import Keywarden.LogRejection
import Keywarden.LogResume
import Keywarden.LogStart

/-!
# Catching up with the journal

An agent that has fallen behind ships what has arrived in batches of the limit, one in a
cycle. The server takes a batch by its size alone, so whether the agent ever catches up is
decided by the sizes of these batches: at the first one that is too large it stays for good.
-/
namespace Keywarden.LogCatchUp

open Rows Text Transitions Journal LogShipping LogDelivery LogEvents LogRejection
open LogStart (after)
open Username (CaseTable)

/-- `ingest_logs` takes the payload. -/
def accepts (F : Framework) (T : CaseTable) (db : Db) (serverId : ServerId) (p : Payload) : Bool :=
  match ingestLogs F db serverId (body T p) with
  | .ok _ => true
  | .error _ => false

/-- A cycle in which everything works and no entry arrives: only the server may refuse. -/
structure Working (K : Cursors) (limit : Int) (server : Payload → Bool) (w : World) (c : Cycle) : Prop where
  before : c.before = []
  answered : Answered server w c
  cursorRead : c.cursorRead = true
  opened : c.reading.opened = true
  sought : c.reading.sought = true
  skipped : c.reading.skipped = true
  early : c.reading.early = []
  cancelled : ∀ k, c.reading.cancelled k = false
  arrivals : ∀ k, c.reading.arrivals k = []
  next : ∀ k, c.reading.next k = true
  entry : ∀ k, c.reading.entry k = true
  ships : c.sending.attempt 0 =
    answer server (.json (collect K c.reading w.journal (readCursor w) limit).events)
  saving : c.saving = .done
  cursorWrite : c.cursorWrite = true

/-- The wanted entries behind the stored cursor. -/
def pending (w : World) (e₀ : Entry Record) : Batch := w.journal.wantedFrom matching (e₀.position + 1)

/-- The `i`-th batch of an agent that ships them. -/
def chunk (limit : Int) (rest : Batch) (i : Nat) : Batch := (rest.drop (i * batchLimit limit)).take (batchLimit limit)

/-- The spool is empty, and these are the entries still to be shipped. -/
structure At (K : Cursors) (j : Log Record) (rest : Batch) (w : World) : Prop where
  journal : w.journal = j
  spool : ∀ f, f ∉ w.spool
  stored : ∃ o ∈ j.entries, matching o.record = true ∧ readCursor w = K.text o.position ∧
    j.wantedFrom matching (o.position + 1) = rest

variable {K : Cursors} {limit : Int} {server : Payload → Bool} {w : World} {c : Cycle} {j : Log Record}
  {rest : Batch}

/-! ## What a cycle does -/

theorem readFrom_working (h : Working K limit server w c) (k room : Nat) (j : Log Record) (p : Nat) :
    readFrom c.reading k room j p = ⟨[], (j.wantedFrom matching p).take room, false⟩ := by
  induction room generalizing k p with
  | zero => simp [readFrom]
  | succ room ih =>
    simp only [readFrom, h.cancelled, h.arrivals, h.next, h.entry, Log.appendAll_nil, Bool.not_true,
      Bool.false_eq_true, if_false, List.nil_append]
    cases hfirst : j.firstFrom matching p with
    | none => simp [Log.wantedFrom_of_none hfirst]
    | some e => simp [Log.wantedFrom_of_some hfirst, ih]

theorem collect_working (h : Working K limit server w c) (hat : At K j rest w) :
    collect K c.reading w.journal (readCursor w) limit = ⟨[], rest.take (batchLimit limit), false⟩ := by
  obtain ⟨o, ho, hw, hread, hrest⟩ := hat.stored
  have hstart : startOf K c.reading j (K.text o.position) = o.position + 1 := by
    simp [startOf, seek, K.text_ne_nil, h.sought, h.skipped, h.early, K.locate_text,
      Log.firstFrom_position ho hw]
  rw [hat.journal, hread]
  simp [collect, h.opened, h.early, hstart, readFrom_working h, hrest]

theorem spoolFiles_empty (h : ∀ f, f ∉ w.spool) : spoolFiles w.spool = [] := by
  simp [spoolFiles, Table.toList_eq_nil h]

theorem drainSpool_empty (h : Working K limit server w c) (hspool : ∀ f, f ∉ w.spool) :
    drainSpool c w = ([], true) := by
  simp [drainSpool, h.answered.listing, spoolFiles_empty hspool, drainFrom]

theorem cycle_working (h : Working K limit server w c) (hat : At K j rest w) :
    cycle K limit w c =
      if rest.take (batchLimit limit) = [] then [] else ship K c (rest.take (batchLimit limit)) := by
  simp [cycle, h.before, shipLogs, drainSpool_empty h hat.spool, shipJournal, h.cursorRead,
    collect_working h hat]

theorem send_working (h : Working K limit server w c) (hat : At K j rest w) :
    send c.sending = server (.json (rest.take (batchLimit limit))) := by
  have hships := h.ships
  rw [collect_working h hat] at hships
  exact send_answer hships

/-- A batch that the server takes is behind the agent. -/
theorem at_shipped (h : Working K limit server w c) (hat : At K j rest w)
    (hserver : rest.take (batchLimit limit) ≠ [] → server (.json (rest.take (batchLimit limit))) = true) :
    At K j (rest.drop (batchLimit limit)) (run apply w (cycle K limit w c)) ∧
      ∀ e, Acknowledged (run apply w (cycle K limit w c)) e ↔
        Acknowledged w e ∨ e ∈ rest.take (batchLimit limit) := by
  have hsend := send_working h hat
  obtain ⟨o, ho, hw, hread, hrest⟩ := hat.stored
  rw [cycle_working h hat]
  cases hlast : (rest.take (batchLimit limit)).getLast? with
  | none =>
    have hnil : rest.take (batchLimit limit) = [] := List.getLast?_eq_none_iff.mp hlast
    have hempty : rest = [] := by
      have hpos := batchLimit_pos limit
      simpa [Nat.ne_of_gt hpos] using hnil
    subst hempty
    simpa [run] using hat
  | some e =>
    have hne : rest.take (batchLimit limit) ≠ [] := by
      intro hnil
      simp [hnil] at hlast
    obtain ⟨xs, hxs⟩ := List.getLast?_eq_some_iff.mp hlast
    have hsplit : j.wantedFrom matching (o.position + 1) = xs ++ e :: rest.drop (batchLimit limit) := by
      have happend := List.take_append_drop (batchLimit limit) rest
      rw [hxs] at happend
      simpa [hrest] using happend.symm
    have hmem : e ∈ j.wantedFrom matching (o.position + 1) := by simp [hsplit]
    obtain ⟨hej, _, hew⟩ := Log.mem_wantedFrom.mp hmem
    have hship : ship K c (rest.take (batchLimit limit)) = [.sent (.json (rest.take (batchLimit limit))) true,
        .cursorWritten (K.text e.position ++ ['\n'])] := by
      simp [ship, hsend, hserver hne, writeCursor, nextCursor, hlast, h.cursorWrite, K.text_ne_nil]
    rw [if_neg hne, hship]
    refine ⟨⟨hat.journal, hat.spool, e, hej, hew, strip_cursor K e.position, Log.wantedFrom_after hsplit⟩, ?_⟩
    intro f
    simp only [Acknowledged, run, apply, if_true, List.mem_append,
      List.mem_singleton, Payload.json.injEq]
    constructor
    · rintro ⟨b, hb | rfl, hf⟩
      · exact .inl ⟨b, hb, hf⟩
      · exact .inr hf
    · rintro (⟨b, hb, hf⟩ | hf)
      · exact ⟨b, .inl hb, hf⟩
      · exact ⟨_, .inr rfl, hf⟩

/-- One that it does not take stays in the spool. -/
theorem spool_refused (h : Working K limit server w c) (hat : At K j rest w)
    (hserver : server (.json (rest.take (batchLimit limit))) = false)
    (hne : rest.take (batchLimit limit) ≠ []) :
    (∃ name, ∀ f, f ∈ (run apply w (cycle K limit w c)).spool ↔
      f = ⟨name, .json (rest.take (batchLimit limit))⟩) ∧
    (run apply w (cycle K limit w c)).taken = w.taken := by
  have hsend := send_working h hat
  have hship : ship K c (rest.take (batchLimit limit)) =
      [.sent (.json (rest.take (batchLimit limit))) false,
        .saved ⟨str c.unixNano ++ ".json".toList ++ ".tmp".toList, .json (rest.take (batchLimit limit))⟩,
        .renamed (str c.unixNano ++ ".json".toList ++ ".tmp".toList) (str c.unixNano ++ ".json".toList)] := by
    simp [ship, hsend, hserver, saveSpool, h.saving]
  rw [cycle_working h hat, if_neg hne, hship]
  generalize str c.unixNano ++ ".json".toList = name
  generalize htmp : (⟨name ++ ".tmp".toList, .json (rest.take (batchLimit limit))⟩ : SpoolFile) = tmp
  have hfind : (w.spool.upsert tmp).find (name ++ ".tmp".toList) = some tmp := by
    rw [Table.find_eq_some]
    exact ⟨(Table.mem_upsert _ _ _).mpr (.inl rfl), by rw [← htmp]; rfl⟩
  refine ⟨⟨name, fun f => ?_⟩, rfl⟩
  simp only [run, apply, rename, Bool.false_eq_true, if_false, hfind,
    Table.mem_upsert, Table.mem_delete]
  rw [← htmp]
  constructor
  · rintro (hf | ⟨⟨hf | ⟨hf, _⟩, hkey⟩, _⟩)
    · exact hf
    · exact absurd (by rw [hf]; rfl) hkey
    · exact absurd hf (hat.spool f)
  · exact .inl

/-- With it in the spool, a cycle changes nothing. -/
theorem run_stuck (h : Working K limit server w c) {f : SpoolFile} (hf : ∀ g, g ∈ w.spool ↔ g = f)
    (hserver : server f.payload = false) : run apply w (cycle K limit w c) = w := by
  have hfiles : spoolFiles w.spool = [f] := by
    simp [spoolFiles, Table.toList_eq_singleton hf]
  have hdrain := drainSpool_answered h.answered
  simp only [hfiles] at hdrain
  simp [cycle, h.before, shipLogs, hdrain, hserver, apply, run]

/-! ## Many cycles -/

section Polls

variable {polls : Nat → Cycle}

/-- As long as the server takes the batches, the agent gets on by one in a cycle. -/
theorem at_after (hworks : ∀ n, Working K limit server (after K limit w polls n) (polls n))
    (hat : At K j rest w) {n : Nat}
    (hserver : ∀ i < n, chunk limit rest i ≠ [] → server (.json (chunk limit rest i)) = true) :
    At K j (rest.drop (n * batchLimit limit)) (after K limit w polls n) ∧
      ∀ e, Acknowledged (after K limit w polls n) e ↔
        Acknowledged w e ∨ e ∈ rest.take (n * batchLimit limit) := by
  induction n with
  | zero => simpa [after] using hat
  | succ n ih =>
    obtain ⟨hnow, hacked⟩ := ih fun i hi => hserver i (Nat.lt_succ_of_lt hi)
    obtain ⟨hnext, hmore⟩ := at_shipped (hworks n) hnow (hserver n (Nat.lt_succ_self n))
    have hmul : (n + 1) * batchLimit limit = n * batchLimit limit + batchLimit limit := Nat.succ_mul _ _
    constructor
    · rwa [hmul, ← List.drop_drop]
    · intro e
      rw [after, hmore, hacked, hmul, List.take_add, List.mem_append, or_assoc]

/-- Once a batch has been refused, every cycle leaves the world as it is. -/
theorem after_stuck (hworks : ∀ n, Working K limit server (after K limit w polls n) (polls n)) {n : Nat}
    {f : SpoolFile} (hf : ∀ g, g ∈ (after K limit w polls n).spool ↔ g = f)
    (hserver : server f.payload = false) (m : Nat) :
    after K limit w polls (n + m) = after K limit w polls n := by
  induction m with
  | zero => rfl
  | succ m ih =>
    have hstuck := run_stuck (hworks (n + m)) (by rw [ih]; exact hf) hserver
    exact hstuck.trans ih

/-- At the first batch that is refused shipping stops, with the batches before it taken. -/
theorem after_refused (hworks : ∀ n, Working K limit server (after K limit w polls n) (polls n))
    (hat : At K j rest w) {i : Nat}
    (hserver : ∀ k < i, chunk limit rest k ≠ [] → server (.json (chunk limit rest k)) = true)
    (hrefused : server (.json (chunk limit rest i)) = false) (hne : chunk limit rest i ≠ []) (m : Nat) :
    after K limit w polls (i + 1 + m) = after K limit w polls (i + 1) ∧
      ∀ e, Acknowledged (after K limit w polls (i + 1)) e ↔
        Acknowledged w e ∨ e ∈ rest.take (i * batchLimit limit) := by
  obtain ⟨hnow, hacked⟩ := at_after hworks hat hserver
  obtain ⟨⟨name, hspool⟩, htaken⟩ := spool_refused (hworks i) hnow hrefused hne
  have hfile : ∀ f, f ∈ (after K limit w polls (i + 1)).spool ↔ f = ⟨name, .json (chunk limit rest i)⟩ :=
    hspool
  refine ⟨after_stuck hworks hfile hrefused m, fun e => ?_⟩
  rw [← hacked e]
  simp only [Acknowledged, after, htaken]

/-- What is in a refused batch is never taken. -/
theorem never_taken (hworks : ∀ n, Working K limit server (after K limit w polls n) (polls n))
    (hat : At K j rest w) {i : Nat}
    (hserver : ∀ k < i, chunk limit rest k ≠ [] → server (.json (chunk limit rest k)) = true)
    (hrefused : server (.json (chunk limit rest i)) = false) (hne : chunk limit rest i ≠ [])
    {e : Entry Record} (hnew : ¬ Acknowledged w e) (he : e ∉ rest.take (i * batchLimit limit)) (n : Nat) :
    ¬ Acknowledged (after K limit w polls n) e := by
  intro hacked
  obtain hn | ⟨m, rfl⟩ : n ≤ i ∨ ∃ m, n = i + 1 + m := by
    obtain h | h := Nat.lt_or_ge i n
    · exact .inr ⟨n - (i + 1), by omega⟩
    · exact .inl h
  · obtain hold | htaken := ((at_after hworks hat fun k hk => hserver k (by omega)).2 e).mp hacked
    · exact hnew hold
    · exact he ((List.take_prefix_take_left (Nat.mul_le_mul_right _ hn)).subset htaken)
  · obtain ⟨hstuck, hsame⟩ := after_refused hworks hat hserver hrefused hne m
    rw [hstuck, hsame] at hacked
    exact hacked.elim hnew he

end Polls

/-- An agent with a stored cursor and an empty spool. -/
theorem at_start {e₀ : Entry Record} (he₀ : e₀ ∈ w.journal.entries) (hw₀ : matching e₀.record = true)
    (hcursor : w.cursorFile = some (K.text e₀.position ++ ['\n'])) (hspool : w.spool = .empty) :
    At K w.journal (pending w e₀) w := by
  have hread : readCursor w = K.text e₀.position := by
    rw [readCursor, hcursor]
    exact strip_cursor K e₀.position
  exact ⟨rfl, by simp [hspool], e₀, he₀, hw₀, hread, rfl⟩

/-- An entry of a batch is in none of those before it. -/
theorem chunk_fresh {e₀ e : Entry Record} {i : Nat} (he : e ∈ chunk limit (pending w e₀) i) :
    e ∈ pending w e₀ ∧ e ∉ (pending w e₀).take (i * batchLimit limit) := by
  have hdrop : e ∈ (pending w e₀).drop (i * batchLimit limit) := List.mem_of_mem_take he
  refine ⟨List.mem_of_mem_drop hdrop, fun htake => ?_⟩
  have hsorted : (pending w e₀).Pairwise fun a b => a.position < b.position :=
    w.journal.ordered.sublist List.filter_sublist
  rw [← List.take_append_drop (i * batchLimit limit) (pending w e₀), List.pairwise_append] at hsorted
  exact Nat.lt_irrefl _ (hsorted.2.2 e htake e hdrop)

/-! ## The server's limit -/

theorem accepts_json {F : Framework} (T : CaseTable) {db : Db} {serverId : ServerId}
    (hserver : (db.servers.find serverId).isSome = true) (b : Batch) :
    accepts F T db serverId (.json b) = decide (Fits F T b) := by
  have hfound : (db.servers.find serverId).isNone = false := by
    rw [← Option.not_isSome, hserver]
    rfl
  by_cases h : Fits F T b
  · simp [accepts, ingestLogs_whole h, hfound, h]
  · simp [accepts, ingestLogs_large h, h]

/-- One entry behind the stored cursor. -/
def oneBehind : World := { oneEntry with journal := oneEntry.journal.append loginRecord }

def working : Nat → Cycle := fun _ => onlySends [] true true

theorem after_oneBehind (n : Nat) : after decimal 500 oneBehind working (n + 1) =
    run apply oneBehind (cycle decimal 500 oneBehind (onlySends [] true true)) := by
  induction n with
  | zero => rfl
  | succ n ih =>
    have hidle : cycle decimal 500 (run apply oneBehind (cycle decimal 500 oneBehind (onlySends [] true true)))
        (onlySends [] true true) = [] := by decide +kernel
    rw [after, ih, working, hidle]
    rfl

theorem works_oneBehind (n : Nat) : Working decimal 500 (accepts debugging CaseTable.keep oneServer 1)
    (after decimal 500 oneBehind working n) (working n) := by
  have hworld : after decimal 500 oneBehind working n = oneBehind ∨ after decimal 500 oneBehind working n =
      run apply oneBehind (cycle decimal 500 oneBehind (onlySends [] true true)) := by
    cases n with
    | zero => exact .inl rfl
    | succ n => exact .inr (after_oneBehind n)
  have hfiles : spoolFiles (after decimal 500 oneBehind working n).spool = [] := by
    obtain h | h := hworld <;> rw [h] <;> decide +kernel
  have hfits : Fits debugging CaseTable.keep (collect decimal (onlySends [] true true).reading
      (after decimal 500 oneBehind working n).journal (readCursor (after decimal 500 oneBehind working n))
      500).events := by
    obtain h | h := hworld <;> rw [h] <;> decide +kernel
  refine ⟨rfl, ⟨rfl, fun _ => rfl, fun _ => rfl, ?_⟩, rfl, rfl, rfl, rfl, rfl, fun _ => rfl, fun _ => rfl,
    fun _ => rfl, fun _ => rfl, ?_, rfl, rfl⟩
  · intro k f hf
    simp [hfiles] at hf
  · rw [answer, working, accepts_json _ (by decide), decide_eq_true hfits]
    rfl

end Keywarden.LogCatchUp
