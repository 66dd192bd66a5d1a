import Keywarden.LogShipping

/-!
# Batches that the server rejects for good

A batch whose send fails goes to the spool, whether or not there is a point in sending it
again, and draining the spool ends at the first file that cannot be sent. One payload that
the server will never take keeps what comes after it, and the journal, from being shipped.
-/
namespace Keywarden.LogRejection

open Rows Transitions LogShipping

/-- The server takes a payload or rejects it with a status that is not retriable. -/
def answer (server : Payload → Bool) (p : Payload) : Attempt :=
  if server p then .accepted else .refused false

/-- Nothing goes wrong in the cycle before its drain is over, rejected payloads apart. -/
structure Answered (server : Payload → Bool) (w : World) (c : Cycle) : Prop where
  listing : c.listing = true
  read : ∀ k, (c.draining k).read = true
  remove : ∀ k, (c.draining k).remove = true
  answers : ∀ k f, (spoolFiles w.spool)[k]? = some f →
    (c.draining k).sending.attempt 0 = answer server f.payload

/-- The cycle delivers whatever the server takes of the spool and goes on to the journal. -/
structure Delivers (K : Cursors) (limit : Int) (server : Payload → Bool) (w : World) (c : Cycle) :
    Prop where
  spooled : ∀ f ∈ w.spool, server f.payload = true → .sent f.payload true ∈ shipLogs K limit c w
  drained : (drainSpool c w).2 = true

/-! ## A drain -/

theorem send_answer {server : Payload → Bool} {s : Sending} {p : Payload}
    (h : s.attempt 0 = answer server p) : send s = server p := by
  rw [send, retry, h, answer]
  cases server p <;> rfl

/-- The files before the first rejected one are sent and removed, and none after it. -/
theorem drainFrom_answered {server : Payload → Bool} {d : Nat → Draining} {k : Nat}
    {files : List SpoolFile} (hread : ∀ k, (d k).read = true) (hremove : ∀ k, (d k).remove = true)
    (hanswer : ∀ i f, files[i]? = some f →
      (d (k + i)).sending.attempt 0 = answer server f.payload) :
    drainFrom d k files =
      ((files.takeWhile fun f => server f.payload).flatMap
          (fun f => [.sent f.payload true, .removed f.name]) ++
        ((files.find? fun f => !server f.payload).map fun f => Effect.sent f.payload false).toList,
      files.all fun f => server f.payload) := by
  induction files generalizing k with
  | nil => rfl
  | cons f files ih =>
    have hsend : send (d k).sending = server f.payload := send_answer (hanswer 0 f rfl)
    rw [drainFrom, hread, hremove, hsend]
    cases hf : server f.payload with
    | false => simp [hf]
    | true =>
      have hrest := ih (k := k + 1) fun i g hg => by
        have hi := hanswer (i + 1) g hg
        rwa [Nat.add_comm i 1, ← Nat.add_assoc] at hi
      simp [hf, hrest]

theorem drainSpool_answered {server : Payload → Bool} {w : World} {c : Cycle}
    (h : Answered server w c) :
    drainSpool c w = (((spoolFiles w.spool).takeWhile fun f => server f.payload).flatMap
          (fun f => [.sent f.payload true, .removed f.name]) ++
        (((spoolFiles w.spool).find? fun f => !server f.payload).map
          fun f => Effect.sent f.payload false).toList,
      (spoolFiles w.spool).all fun f => server f.payload) := by
  rw [drainSpool, h.listing]
  refine drainFrom_answered h.read h.remove fun i f hf => ?_
  rw [Nat.zero_add]
  exact h.answers i f hf

@[simp] theorem mem_spoolFiles (dir : Table SpoolFile) (f : SpoolFile) :
    f ∈ spoolFiles dir ↔ f ∈ dir := by
  rw [spoolFiles, List.mem_insertionSort, Table.mem_toList]

/-- A cycle delivers what the server takes and goes on to the journal if and only if the
spool holds no payload that the server rejects. -/
theorem delivers_spool_iff (K : Cursors) (limit : Int) {server : Payload → Bool} {w : World}
    {c : Cycle} (h : Answered server w c) :
    Delivers K limit server w c ↔ ∀ f ∈ w.spool, server f.payload = true := by
  have hdrain := drainSpool_answered h
  constructor
  · intro hdelivers f hf
    have hall := hdelivers.drained
    rw [hdrain, List.all_eq_true] at hall
    exact hall f ((mem_spoolFiles _ _).mpr hf)
  · intro hall
    have hfiles : ∀ f ∈ spoolFiles w.spool, server f.payload = true :=
      fun f hf => hall f ((mem_spoolFiles _ _).mp hf)
    refine ⟨fun f hf _ => ?_, ?_⟩
    · rw [shipLogs, hdrain]
      refine List.mem_append_left _ (List.mem_append_left _ (List.mem_flatMap.mpr ⟨f, ?_, ?_⟩))
      · rw [List.takeWhile_eq_self_iff.mpr hfiles, mem_spoolFiles]
        exact hf
      · exact List.mem_cons_self
    · rw [hdrain]
      exact List.all_eq_true.mpr hfiles

/-! ## What follows a rejected batch -/

def ran (K : Cursors) (limit : Int) (w : World) (c : Cycle) : World := run apply w (cycle K limit w c)

/-- The file is still there, the cursor is where it was, and the server has taken nothing
but payloads of the spool since. -/
structure Stuck (w : World) (f : SpoolFile) (v : World) : Prop where
  kept : f ∈ v.spool
  cursor : v.cursorFile = w.cursorFile
  spool : ∀ g ∈ v.spool, g ∈ w.spool
  taken : ∀ p ∈ v.taken, p ∈ w.taken ∨ ∃ g ∈ w.spool, g.payload = p

/-- Entries that arrive, and sends and removals of other files than `f`. -/
def Harmless (w : World) (f : SpoolFile) (e : Effect) : Prop :=
  (∃ r, e = .arrived r) ∨ ∃ g ∈ w.spool, (∃ accepted, e = .sent g.payload accepted) ∨
    (g.name ≠ f.name ∧ e = .removed g.name)

theorem stuck_apply {w v : World} {f : SpoolFile} {e : Effect} (h : Stuck w f v)
    (he : Harmless w f e) : Stuck w f (apply v e) := by
  obtain ⟨r, rfl⟩ | ⟨g, hg, ⟨accepted, rfl⟩ | ⟨hname, rfl⟩⟩ := he
  · exact ⟨h.kept, h.cursor, h.spool, h.taken⟩
  · cases accepted with
    | false => exact h
    | true =>
      refine ⟨h.kept, h.cursor, h.spool, fun p hp => ?_⟩
      obtain hp | hp := List.mem_append.mp hp
      · exact h.taken p hp
      · exact .inr ⟨g, hg, (List.mem_singleton.mp hp).symm⟩
  · refine ⟨(Table.mem_delete _ _ _).mpr ⟨h.kept, Ne.symm hname⟩, h.cursor, fun q hq => ?_, h.taken⟩
    exact h.spool q ((Table.mem_delete _ _ _).mp hq).1

theorem stuck_cycle {K : Cursors} {limit : Int} {server : Payload → Bool} {w v : World} {f : SpoolFile}
    {c : Cycle} (hrejected : server f.payload = false) (hf : f ∈ w.spool) (h : Stuck w f v)
    (hc : Answered server v c) : Stuck w f (ran K limit v c) := by
  let v' : World := { v with journal := v.journal.appendAll c.before }
  have hdrain := drainSpool_answered (w := v') (c := c) ⟨hc.listing, hc.read, hc.remove, hc.answers⟩
  have hall : ((spoolFiles v'.spool).all fun f => server f.payload) = false := by
    rw [List.all_eq_false]
    exact ⟨f, (mem_spoolFiles _ _).mpr h.kept, by simp [hrejected]⟩
  have heffects : cycle K limit v c = c.before.map .arrived ++ (drainSpool c v').1 := by
    rw [cycle, shipLogs]
    simp only [show (drainSpool c v').2 = false by rw [hdrain, hall], Bool.false_eq_true, if_false,
      List.append_nil, v']
  rw [ran, heffects]
  refine run_invariant (P := fun _ e => Harmless w f e) (fun _ _ hv he => stuck_apply hv he) h
    (along_of_mem v fun e he => ?_)
  have hspool : ∀ g ∈ spoolFiles v'.spool, g ∈ w.spool :=
    fun g hg => h.spool g ((mem_spoolFiles _ _).mp hg)
  obtain he | he := List.mem_append.mp he
  · obtain ⟨r, _, rfl⟩ := List.mem_map.mp he
    exact .inl ⟨r, rfl⟩
  rw [hdrain] at he
  obtain he | he := List.mem_append.mp he
  · obtain ⟨g, hg, he⟩ := List.mem_flatMap.mp he
    have haccepted := List.mem_takeWhile_imp hg
    have hgw := hspool g ((List.takeWhile_prefix _).subset hg)
    simp only [List.mem_cons, List.not_mem_nil, or_false] at he
    obtain rfl | rfl := he
    · exact .inr ⟨g, hgw, .inl ⟨true, rfl⟩⟩
    · refine .inr ⟨g, hgw, .inr ⟨fun hname => ?_, rfl⟩⟩
      rw [Table.eq_of_key _ hgw hf hname, hrejected] at haccepted
      cases haccepted
  · rw [Option.mem_toList, Option.map_eq_some_iff] at he
    obtain ⟨g, hg, rfl⟩ := he
    exact .inr ⟨g, hspool g (List.mem_of_find?_eq_some hg), .inl ⟨false, rfl⟩⟩

/-- However many cycles follow, with a rejected file in the spool nothing new is shipped. -/
theorem stuck_run {K : Cursors} {limit : Int} {server : Payload → Bool} {w : World} {f : SpoolFile}
    (hf : f ∈ w.spool) (hrejected : server f.payload = false) (cycles : List Cycle)
    (hc : Along (ran K limit) (Answered server) w cycles) :
    Always (ran K limit) (Stuck w f) w cycles :=
  always_invariant (fun _ _ h hc => stuck_cycle hrejected hf h hc)
    ⟨hf, rfl, fun _ hg => hg, fun _ hp => .inl hp⟩ hc

/-! ## A rejected batch before a good one -/

def rejectedFile : SpoolFile := ⟨"1.json".toList, .json [⟨0, sshRecord⟩]⟩
def goodFile : SpoolFile := ⟨"2.json".toList, .json [⟨1, sshRecord⟩]⟩

def pickyServer (p : Payload) : Bool := p = goodFile.payload

/-- A spool with one file. -/
def spooled (f : SpoolFile) : World := { oneEntry with spool := Table.empty.insert f }

theorem answered_good : Answered pickyServer (spooled goodFile) (onlySends [] true true) := by
  refine ⟨rfl, fun _ => rfl, fun _ => rfl, fun k f hf => ?_⟩
  have hfile : f = goodFile := List.mem_singleton.mp (List.mem_of_getElem? hf)
  have hgood : Attempt.accepted = answer pickyServer goodFile.payload := by decide
  rw [hfile]
  exact hgood

theorem delivers_good : Delivers decimal 500 pickyServer (spooled goodFile) (onlySends [] true true) := by
  refine (delivers_spool_iff decimal 500 answered_good).mpr fun f hf => ?_
  rw [List.mem_singleton.mp hf]
  decide

def both : World := { spooled rejectedFile with spool := (spooled rejectedFile).spool.insert goodFile }

/-- The first file of the spool is rejected. -/
def rejecting : Cycle :=
  { onlySends [] true true with draining := fun k => ⟨true, sending (k ≠ 0), true⟩ }

theorem rejected_blocks_good :
    ¬ ∀ (K : Cursors) (limit : Int) (server : Payload → Bool) (w : World) (c : Cycle),
      Answered server w c → Delivers K limit server w c := by
  intro h
  have hfiles : spoolFiles both.spool = [rejectedFile, goodFile] := by decide +kernel
  have hanswered : Answered pickyServer both rejecting := by
    refine ⟨rfl, fun _ => rfl, fun _ => rfl, fun k f hf => ?_⟩
    rw [hfiles] at hf
    match k, hf with
    | 0, hf =>
      cases hf
      decide
    | 1, hf =>
      cases hf
      decide
  exact absurd (h decimal 500 pickyServer both rejecting hanswered).drained (by decide +kernel)

end Keywarden.LogRejection
