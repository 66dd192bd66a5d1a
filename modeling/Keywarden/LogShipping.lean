import Mathlib.Data.Char
import Mathlib.Data.List.Sort
import Mathlib.Data.List.Lex
import Keywarden.AgentHost
import Keywarden.Journal
import Keywarden.Rows
import Keywarden.Transitions

/-!
# Log shipping

`shipLogs` of the agent with `internal/logs`: the spool of the batches that could not be
sent, the journal reader and the cursor file. A cycle is the list of its effects on the
world, so that a statement can be about every moment in it; what goes wrong in a cycle
is given with the cycle.
-/
namespace Keywarden.LogShipping

open Rows Text Transitions Journal
open AgentHost (goSpace)

/-- A journal entry: its time and its `FIELD=value` pairs, which are UTF-8 here. -/
structure Record where
  realtime : Int
  fields : List String
  deriving DecidableEq, Repr

def defaultMatches : List String :=
  ["_SYSTEMD_UNIT=sshd.service", "_SYSTEMD_UNIT=sudo.service",
    "_SYSTEMD_UNIT=systemd-networkd.service", "_SYSTEMD_UNIT=NetworkManager.service",
    "_SYSTEMD_UNIT=systemd-logind.service", "_TRANSPORT=kernel"]

/-- The disjunction of the matches. -/
def matching (r : Record) : Bool := defaultMatches.any fun m => r.fields.contains m

/-- How systemd writes the position of an entry down and finds it again. -/
structure Cursors where
  text : Nat → List Char
  locate : List Char → Option Nat
  locate_text : ∀ p, locate (text p) = some p
  text_ne_nil : ∀ p, text p ≠ []
  text_no_space : ∀ p, ∀ c ∈ text p, goSpace c = false

abbrev Batch := List (Entry Record)

/-- The events of a batch, one made from each entry, as JSON text; or the first bytes of
that text, left by a write that failed. -/
inductive Payload where
  | json : Batch → Payload
  | torn : Batch → Nat → Payload
  deriving DecidableEq, Repr

structure SpoolFile where
  name : List Char
  payload : Payload
  deriving DecidableEq, Repr

instance : Keyed SpoolFile (List Char) := ⟨SpoolFile.name⟩

@[simp] theorem key_spoolFile (f : SpoolFile) : Keyed.key f = f.name := rfl

/-- The journal, the files of the agent, and the payloads that the server has taken. -/
structure World where
  journal : Log Record
  cursorFile : Option (List Char)
  spool : Table SpoolFile
  taken : List Payload

inductive Effect where
  | arrived : Record → Effect
  | sent : Payload → Bool → Effect
  | saved : SpoolFile → Effect
  | renamed : List Char → List Char → Effect
  | removed : List Char → Effect
  | cursorWritten : List Char → Effect
  deriving DecidableEq, Repr

def rename (source target : List Char) (dir : Table SpoolFile) : Table SpoolFile :=
  match dir.find source with
  | none => dir
  | some f => (dir.delete source).upsert ⟨target, f.payload⟩

def apply (w : World) : Effect → World
  | .arrived r => { w with journal := w.journal.append r }
  | .sent p accepted => if accepted then { w with taken := w.taken ++ [p] } else w
  | .saved f => { w with spool := w.spool.upsert f }
  | .renamed source target => { w with spool := rename source target w.spool }
  | .removed name => { w with spool := w.spool.delete name }
  | .cursorWritten text => { w with cursorFile := some text }

/-! ## Sending -/

inductive Attempt where
  | accepted
  | refused (retriable : Bool)
  deriving DecidableEq, Repr

/-- What each attempt meets, and whether the context ends in the wait after it. -/
structure Sending where
  attempt : Nat → Attempt
  cancelled : Nat → Bool

/-- `k` attempts have been made and so many delays are left. -/
def retry (s : Sending) (k : Nat) : Nat → Bool
  | 0 => decide (s.attempt k = .accepted)
  | delays + 1 =>
    match s.attempt k with
    | .accepted => true
    | .refused retriable =>
      if !retriable || s.cancelled k then false else retry s (k + 1) delays

/-- `send` of `shipLogs`, with its three delays. -/
def send (s : Sending) : Bool := retry s 0 3

/-! ## The spool -/

/-- What one file of the spool meets. -/
structure Draining where
  read : Bool
  sending : Sending
  remove : Bool

/-- The files from the `k`-th on; the flag says whether the loop came to its end. -/
def drainFrom (d : Nat → Draining) (k : Nat) : List SpoolFile → List Effect × Bool
  | [] => ([], true)
  | f :: files =>
    if !(d k).read then ([], false)
    else if !send (d k).sending then ([.sent f.payload false], false)
    else if !(d k).remove then ([.sent f.payload true], false)
    else
      let (effects, ok) := drainFrom d (k + 1) files
      (.sent f.payload true :: .removed f.name :: effects, ok)

def spoolFiles (dir : Table SpoolFile) : List SpoolFile :=
  dir.toList.insertionSort fun f g => f.name ≤ g.name

/-- How far `SaveSpool` gets. -/
inductive Saving where
  | mkdirFailed
  | writeFailed (left : Option Nat)
  | renameFailed
  | done
  deriving DecidableEq, Repr

def saveSpool (saving : Saving) (unixNano : Nat) (batch : Batch) : List Effect :=
  let name := str unixNano ++ ".json".toList
  let tmp := name ++ ".tmp".toList
  match saving with
  | .mkdirFailed => []
  | .writeFailed none => []
  | .writeFailed (some n) => [.saved ⟨tmp, .torn batch n⟩]
  | .renameFailed => [.saved ⟨tmp, .json batch⟩]
  | .done => [.saved ⟨tmp, .json batch⟩, .renamed tmp name]

/-! ## The journal -/

/-- What one `Collect` meets: whether the journal opens with its matches, whether the
seek and the `Next` after it work, what each turn of the loop meets, and which entries
arrive before that first `Next` and before the one of each turn. -/
structure Reading where
  opened : Bool
  sought : Bool
  skipped : Bool
  early : List Record
  cancelled : Nat → Bool
  arrivals : Nat → List Record
  next : Nat → Bool
  entry : Nat → Bool

/-- The entries that arrived meanwhile, the events, and whether an error comes with them. -/
structure Collected where
  arrived : List Record
  events : Batch
  failed : Bool
  deriving DecidableEq, Repr

def batchLimit (limit : Int) : Nat := if limit ≤ 0 then 500 else limit.toNat

/-- The loop of `Collect` at turn `k`, with room for so many events, the reader at `p`. -/
def readFrom (r : Reading) (k : Nat) : Nat → Log Record → Nat → Collected
  | 0, _, _ => ⟨[], [], false⟩
  | room + 1, j, p =>
    if r.cancelled k then ⟨[], [], true⟩
    else
      let j := j.appendAll (r.arrivals k)
      if !r.next k then ⟨r.arrivals k, [], true⟩
      else match j.firstFrom matching p with
        | none => ⟨r.arrivals k, [], false⟩
        | some e =>
          if !r.entry k then ⟨r.arrivals k, [], true⟩
          else
            let rest := readFrom r (k + 1) room j (e.position + 1)
            ⟨r.arrivals k ++ rest.arrived, e :: rest.events, rest.failed⟩

/-- Where the seek leaves the reader; `none` is the head, with no `Next` after it. -/
def seek (K : Cursors) (r : Reading) (j : Log Record) (cursor : List Char) : Option Nat :=
  if cursor ≠ [] then if r.sought then K.locate cursor else none
  else some (if r.sought then j.next else 0)

/-- Where the reader stands when the loop begins. -/
def startOf (K : Cursors) (r : Reading) (j : Log Record) (cursor : List Char) : Nat :=
  match seek K r j cursor with
  | none => 0
  | some p =>
    if !r.skipped then p
    else match (j.appendAll r.early).firstFrom matching p with
      | none => p
      | some e => e.position + 1

def collect (K : Cursors) (r : Reading) (j : Log Record) (cursor : List Char) (limit : Int) :
    Collected :=
  if !r.opened then ⟨[], [], true⟩
  else
    let rest := readFrom r 0 (batchLimit limit) (j.appendAll r.early) (startOf K r j cursor)
    { rest with arrived := r.early ++ rest.arrived }

def nextCursor (K : Cursors) (events : Batch) : List Char :=
  match events.getLast? with
  | none => []
  | some e => K.text e.position

/-! ## The cursor file -/

def readCursor (w : World) : List Char := strip goSpace (w.cursorFile.getD [])

/-- A write that fails here does so before the file is truncated; `CursorCrash` is about those that
fail later and leave the beginning of a cursor. -/
def writeCursor (works : Bool) (cursor : List Char) : List Effect :=
  if cursor = [] ∨ works = false then [] else [.cursorWritten (cursor ++ ['\n'])]

/-! ## One cycle -/

/-- What one cycle meets; `before` has arrived since the cycle before it. -/
structure Cycle where
  before : List Record
  listing : Bool
  draining : Nat → Draining
  cursorRead : Bool
  reading : Reading
  sending : Sending
  saving : Saving
  unixNano : Nat
  cursorWrite : Bool

def drainSpool (c : Cycle) (w : World) : List Effect × Bool :=
  if !c.listing then ([], false) else drainFrom c.draining 0 (spoolFiles w.spool)

/-- After a send that failed the batch goes to the spool and the cursor stays. -/
def ship (K : Cursors) (c : Cycle) (batch : Batch) : List Effect :=
  if send c.sending then .sent (.json batch) true :: writeCursor c.cursorWrite (nextCursor K batch)
  else .sent (.json batch) false :: saveSpool c.saving c.unixNano batch

/-- What a cycle does once the spool is drained. -/
def shipJournal (K : Cursors) (limit : Int) (c : Cycle) (w : World) : List Effect :=
  if !c.cursorRead then []
  else
    let r := collect K c.reading w.journal (readCursor w) limit
    r.arrived.map .arrived ++ if r.failed ∨ r.events = [] then [] else ship K c r.events

def shipLogs (K : Cursors) (limit : Int) (c : Cycle) (w : World) : List Effect :=
  let (drained, ok) := drainSpool c w
  drained ++ if ok then shipJournal K limit c w else []

/-- The effects of a cycle, those of its environment included. -/
def cycle (K : Cursors) (limit : Int) (w : World) (c : Cycle) : List Effect :=
  c.before.map .arrived ++
    shipLogs K limit c { w with journal := w.journal.appendAll c.before }

/-- The effects of a run of cycles. -/
def trace (K : Cursors) (limit : Int) : World → List Cycle → List Effect
  | _, [] => []
  | w, c :: cs => cycle K limit w c ++ trace K limit (run apply w (cycle K limit w c)) cs

/-! ## What a collection reads -/

theorem batchLimit_pos (limit : Int) : 0 < batchLimit limit := by
  unfold batchLimit
  split <;> omega

theorem append_journal (j : Log Record) (rs ss : List Record) :
    j.appendAll (rs ++ ss) = (j.appendAll rs).appendAll ss :=
  List.foldl_append

/-- The events are the first wanted entries of the journal as it is in the end. -/
theorem readFrom_prefix (r : Reading) (k room : Nat) (j : Log Record) (p : Nat) :
    (readFrom r k room j p).events <+:
      (j.appendAll (readFrom r k room j p).arrived).wantedFrom matching p := by
  induction room generalizing k j p with
  | zero => exact List.nil_prefix
  | succ room ih =>
    unfold readFrom
    split
    · exact List.nil_prefix
    simp only
    split
    · exact List.nil_prefix
    split
    · exact List.nil_prefix
    · next e he =>
      split
      · exact List.nil_prefix
      · simp only [append_journal]
        let j' := j.appendAll (r.arrivals k)
        let rest := readFrom r (k + 1) room j' (e.position + 1)
        have hext : j'.Extends (j'.appendAll rest.arrived) := Log.extends_appendAll _ _
        change e :: rest.events <+: (j'.appendAll rest.arrived).wantedFrom matching p
        rw [Log.wantedFrom_of_some (hext.firstFrom he)]
        exact (List.cons_prefix_cons).mpr ⟨rfl, ih (k + 1) j' (e.position + 1)⟩

theorem collect_prefix (K : Cursors) (r : Reading) (j : Log Record) (cursor : List Char) (limit : Int) :
    (collect K r j cursor limit).events <+:
      (j.appendAll (collect K r j cursor limit).arrived).wantedFrom matching (startOf K r j cursor) := by
  unfold collect
  split
  · exact List.nil_prefix
  · simp only [append_journal]
    exact readFrom_prefix _ _ _ _ _

/-- From a stored cursor the reader starts behind its entry, or earlier when a call to
the journal fails. -/
theorem startOf_le (K : Cursors) (r : Reading) (j : Log Record) {e : Entry Record}
    (he : e ∈ j.entries) (hw : matching e.record = true) :
    startOf K r j (K.text e.position) ≤ e.position + 1 := by
  unfold startOf seek
  rw [if_pos (K.text_ne_nil _)]
  cases r.sought with
  | false => exact Nat.zero_le _
  | true =>
    simp only [if_true, K.locate_text]
    cases r.skipped with
    | false => exact Nat.le_succ _
    | true =>
      simp only [Bool.not_true, Bool.false_eq_true, if_false]
      rw [Log.firstFrom_position ((Log.extends_appendAll j r.early).mem he) hw]

/-! ## What the effects change -/

theorem run_arrived (w : World) (rs : List Record) :
    run apply w (rs.map .arrived) = { w with journal := w.journal.appendAll rs } := by
  induction rs generalizing w with
  | nil => rfl
  | cons r rs ih => exact ih (apply w (.arrived r))

/-- A cursor that was written is the one that is read. -/
theorem strip_cursor (K : Cursors) (p : Nat) : strip goSpace (K.text p ++ ['\n']) = K.text p := by
  have hhead : (K.text p ++ ['\n']).dropWhile goSpace = K.text p ++ ['\n'] := by
    cases ht : K.text p with
    | nil => exact absurd ht (K.text_ne_nil p)
    | cons c t =>
      have hc := K.text_no_space p c (by rw [ht]; exact List.mem_cons_self)
      rw [List.cons_append, List.dropWhile_cons_of_neg (by rw [hc]; decide)]
  rw [strip, hhead, List.rdropWhile_concat_pos _ _ _ (by decide), List.rdropWhile_eq_self_iff]
  intro hne
  rw [K.text_no_space p _ (List.getLast_mem hne)]
  decide

/-- Effects on the spool and the server alone. -/
def Effect.onSpool : Effect → Bool
  | .arrived _ | .cursorWritten _ => false
  | _ => true

theorem apply_onSpool (w : World) {e : Effect} (h : e.onSpool = true) :
    (apply w e).journal = w.journal ∧ (apply w e).cursorFile = w.cursorFile := by
  cases e with
  | sent p accepted =>
    simp only [apply]
    split <;> exact ⟨rfl, rfl⟩
  | saved f => exact ⟨rfl, rfl⟩
  | renamed source target => exact ⟨rfl, rfl⟩
  | removed name => exact ⟨rfl, rfl⟩
  | arrived r => cases h
  | cursorWritten text => cases h

theorem run_onSpool (w : World) {es : List Effect} (h : ∀ e ∈ es, e.onSpool = true) :
    (run apply w es).journal = w.journal ∧ (run apply w es).cursorFile = w.cursorFile := by
  induction es generalizing w with
  | nil => exact ⟨rfl, rfl⟩
  | cons e es ih =>
    obtain ⟨hj, hc⟩ := apply_onSpool w (h e List.mem_cons_self)
    obtain ⟨hj', hc'⟩ := ih (apply w e) fun e he => h e (List.mem_cons_of_mem _ he)
    exact ⟨hj'.trans hj, hc'.trans hc⟩

/-- The server takes nothing back. -/
theorem taken_apply (w : World) (e : Effect) : w.taken <+: (apply w e).taken := by
  cases e with
  | sent p accepted =>
    cases accepted with
    | true => exact List.prefix_append _ _
    | false => exact List.prefix_refl _
  | _ => exact List.prefix_refl _

theorem taken_run (w : World) (es : List Effect) : w.taken <+: (run apply w es).taken := by
  induction es generalizing w with
  | nil => exact List.prefix_refl _
  | cons e es ih => exact (taken_apply w e).trans (ih (apply w e))

theorem drainFrom_onSpool (d : Nat → Draining) (k : Nat) (files : List SpoolFile) :
    ∀ e ∈ (drainFrom d k files).1, e.onSpool = true := by
  induction files generalizing k with
  | nil => simp [drainFrom]
  | cons f files ih =>
    unfold drainFrom
    split
    · simp
    split
    · simp [Effect.onSpool]
    split
    · simp [Effect.onSpool]
    · intro e he
      simp only [List.mem_cons] at he
      obtain rfl | rfl | he := he
      · rfl
      · rfl
      · exact ih (k + 1) e he

theorem drainSpool_onSpool (c : Cycle) (w : World) : ∀ e ∈ (drainSpool c w).1, e.onSpool = true := by
  unfold drainSpool
  split
  · simp
  · exact drainFrom_onSpool _ _ _

theorem saveSpool_onSpool (saving : Saving) (unixNano : Nat) (batch : Batch) :
    ∀ e ∈ saveSpool saving unixNano batch, e.onSpool = true := by
  cases saving with
  | writeFailed left => cases left <;> simp [saveSpool, Effect.onSpool]
  | _ => simp [saveSpool, Effect.onSpool]

/-! ## A small deployment -/

theorem goSpace_of_isDigit {c : Char} (h : c.isDigit = true) : goSpace c = false := by
  have hlo : 48 ≤ c.toNat ∧ c.toNat ≤ 57 := by
    simp only [Char.isDigit, Bool.and_eq_true, decide_eq_true_eq] at h
    exact h
  simp only [goSpace, Bool.or_eq_false_iff, Bool.and_eq_false_iff, decide_eq_false_iff_not,
    beq_eq_false_iff_ne]
  omega

/-- Cursors that are the position in decimal. -/
def decimal : Cursors where
  text p := str (p : Int)
  locate s := if s ≠ [] ∧ s.all Char.isDigit then some (Nat.ofDigitChars 10 s 0) else none
  locate_text p := by
    have hall : (str (p : Int)).all Char.isDigit = true :=
      List.all_eq_true.mpr fun c hc => isDigit_of_mem_str hc
    rw [if_pos ⟨str_ne_nil _, hall⟩, str_natCast, Nat.ofDigitChars_ten_toDigits]
  text_ne_nil p := str_ne_nil _
  text_no_space p c hc := goSpace_of_isDigit (isDigit_of_mem_str hc)

def sshRecord : Record := ⟨0, ["_SYSTEMD_UNIT=sshd.service"]⟩

/-- The journal holds one entry, the stored cursor. -/
def oneEntry : World := ⟨Log.empty.append sshRecord, some (str 0 ++ ['\n']), .empty, []⟩

def sending (works : Bool) : Sending :=
  ⟨fun _ => if works then .accepted else .refused false, fun _ => false⟩

/-- A cycle in which only sends fail, of spooled batches or of the new one. -/
def onlySends (before : List Record) (drains ships : Bool) : Cycle where
  before := before
  listing := true
  draining _ := ⟨true, sending drains, true⟩
  cursorRead := true
  reading := ⟨true, true, true, [], fun _ => false, fun _ => [], fun _ => true, fun _ => true⟩
  sending := sending ships
  saving := .done
  unixNano := 1
  cursorWrite := true

end Keywarden.LogShipping
