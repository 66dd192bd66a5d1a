import Keywarden.LogDelivery

/-!
# A cursor file that is cut short

`WriteCursor` overwrites the cursor file in place. A cycle that is killed, or that runs
out of disk space, may leave the file empty or with the beginning of a cursor. An empty
file is also what an agent finds that has never shipped anything, and such an agent starts
at the end of the journal.
-/
namespace Keywarden.CursorCrash

open Rows Transitions Journal LogShipping LogDelivery
open AgentHost (goSpace)

/-- What the system calls of an effect do one after the other: a file is truncated, then
`n` of its bytes are written, then the rest. -/
def calls (n : Nat) : Effect → List Effect
  | .saved ⟨name, .json batch⟩ =>
    [.saved ⟨name, .torn batch 0⟩, .saved ⟨name, .torn batch n⟩, .saved ⟨name, .json batch⟩]
  | .saved ⟨name, .torn batch m⟩ => [.saved ⟨name, .torn batch 0⟩, .saved ⟨name, .torn batch m⟩]
  | .cursorWritten text =>
    [.cursorWritten [], .cursorWritten (text.take n), .cursorWritten text]
  | e => [e]

/-- A cycle, and after how many system calls it comes to its end, if it is cut short: by a
kill, or in the middle of writing the cursor by a full disk. -/
structure Turn where
  cycle : Cycle
  bytes : Nat
  stopped : Option Nat

section

variable (K : Cursors) (limit : Int)

def done (w : World) (t : Turn) : List Effect :=
  cut t.stopped ((cycle K limit w t.cycle).flatMap (calls t.bytes))

def turn (w : World) (t : Turn) : World := run apply w (done K limit w t)

/-- Wherever the next collection starts, the server has taken all wanted entries from the
first cursor, at `p₀`, up to there. -/
def NextCollect (p₀ : Nat) (w : World) : Prop :=
  ∀ (arrived : List Record) (r : Reading),
    ∀ e ∈ ((w.journal.appendAll arrived).appendAll r.early).entries, matching e.record = true →
      p₀ < e.position → e.position < startOf K r (w.journal.appendAll arrived) (readCursor w) →
      Acknowledged w e

/-- The turn does not end with the cursor file empty. -/
def LeavesCursor (w : World) (t : Turn) : Prop :=
  (done K limit w t).getLast? ≠ some (.cursorWritten [])

end

/-- The beginning of a cursor is no cursor, or one of an entry that is not later. -/
def TornEarlier (K : Cursors) : Prop :=
  ∀ p s q, s <+: K.text p → K.locate s = some q → q ≤ p

/-- The cursor may be at the entry: the server has taken all wanted ones up to it. -/
structure Reached (p₀ : Nat) (w : World) (e : Entry Record) : Prop where
  mem : e ∈ w.journal.entries
  wanted : matching e.record = true
  acknowledged : ∀ f ∈ w.journal.entries, matching f.record = true → p₀ < f.position →
    f.position ≤ e.position → Acknowledged w f

/-- The cursor file holds the beginning of the cursor of such an entry. -/
def Covered (K : Cursors) (p₀ : Nat) (w : World) : Prop :=
  ∃ e, Reached p₀ w e ∧ readCursor w ≠ [] ∧ readCursor w <+: K.text e.position

variable {K : Cursors} {p₀ : Nat} {w : World}

/-! ## Where a collection starts -/

theorem startOf_torn_le (hK : TornEarlier K) (r : Reading) (j : Log Record) {e : Entry Record}
    (he : e ∈ j.entries) (hw : matching e.record = true) {s : List Char} (hne : s ≠ [])
    (hs : s <+: K.text e.position) : startOf K r j s ≤ e.position + 1 := by
  unfold startOf seek
  rw [if_pos hne]
  cases r.sought with
  | false => exact Nat.zero_le _
  | true =>
    simp only [if_true]
    cases hq : K.locate s with
    | none => exact Nat.zero_le _
    | some q =>
      have hle := hK e.position s q hs hq
      cases r.skipped with
      | false => exact Nat.le_succ_of_le hle
      | true =>
        obtain ⟨f, hf, hfe⟩ := Log.firstFrom_le ((Log.extends_appendAll j r.early).mem he) hw hle
        simp only [Bool.not_true, Bool.false_eq_true, if_false, hf]
        exact Nat.succ_le_succ hfe

theorem Covered.nextCollect (hK : TornEarlier K) (h : Covered K p₀ w) : NextCollect K p₀ w := by
  obtain ⟨o, ho, hne, hpre⟩ := h
  intro arrived r e he hw hlo hhi
  have hext := Log.extends_appendAll w.journal arrived
  have hstart := startOf_torn_le hK r (w.journal.appendAll arrived) (hext.mem ho.mem) ho.wanted hne hpre
  have hlt := w.journal.bounded o ho.mem
  have hnext := Log.next_le_appendAll w.journal arrived
  have he' := (Log.extends_appendAll (w.journal.appendAll arrived) r.early).mem_of_lt he (by omega)
  exact ho.acknowledged e (hext.mem_of_lt he' (by omega)) hw hlo (by omega)

/-! ## One effect -/

theorem Reached.mono {w' : World} {e : Entry Record} (h : Reached p₀ w e)
    (hext : w.journal.Extends w'.journal) (htaken : w.taken <+: w'.taken) : Reached p₀ w' e := by
  refine ⟨hext.mem h.mem, h.wanted, fun f hf hw hlo hhi => ?_⟩
  have hlt := w.journal.bounded e h.mem
  obtain ⟨batch, hb, hf⟩ := h.acknowledged f (hext.mem_of_lt hf (by omega)) hw hlo hhi
  exact ⟨batch, htaken.subset hb, hf⟩

theorem extends_apply (w : World) (e : Effect) : w.journal.Extends (apply w e).journal := by
  cases e with
  | arrived r => exact Log.extends_appendAll w.journal [r]
  | sent p accepted =>
    rw [(apply_onSpool w (e := .sent p accepted) rfl).1]
    exact Log.Extends.refl _
  | _ => exact Log.Extends.refl _

theorem covered_apply (h : Covered K p₀ w) {e : Effect} (he : ∀ text, e ≠ .cursorWritten text) :
    Covered K p₀ (apply w e) := by
  have hcursor : (apply w e).cursorFile = w.cursorFile := by
    cases e with
    | arrived r => rfl
    | cursorWritten text => exact absurd rfl (he text)
    | _ => exact (apply_onSpool w rfl).2
  obtain ⟨o, ho, hne, hpre⟩ := h
  refine ⟨o, ho.mono (extends_apply w e) (taken_apply w e), ?_, ?_⟩
  · rw [readCursor, hcursor]
    exact hne
  · rw [readCursor, hcursor]
    exact hpre

theorem covered_run (h : Covered K p₀ w) {es : List Effect}
    (hes : ∀ e ∈ es, ∀ text, e ≠ .cursorWritten text) : Covered K p₀ (run apply w es) :=
  run_invariant (P := fun _ (e : Effect) => ∀ text, e ≠ .cursorWritten text) (I := Covered K p₀)
    (fun _ _ h he => covered_apply h he) h (along_of_mem w hes)

/-! ## The cursor of a cycle -/

theorem ship_cases (K : Cursors) (c : Cycle) (batch : Batch) :
    (∀ e ∈ ship K c batch, ∀ text, e ≠ .cursorWritten text) ∨
      ∃ o, batch.getLast? = some o ∧ ship K c batch =
        [.sent (.json batch) true, .cursorWritten (K.text o.position ++ ['\n'])] := by
  unfold ship
  split
  · cases hlast : batch.getLast? with
    | none =>
      rw [writeCursor, nextCursor, hlast, if_pos (.inl rfl)]
      exact .inl (by simp)
    | some o =>
      rw [writeCursor, nextCursor, hlast]
      cases c.cursorWrite with
      | false => exact .inl (by simp)
      | true => exact .inr ⟨o, rfl, by simp [K.text_ne_nil]⟩
  · refine .inl fun e he text ht => ?_
    obtain rfl | he := List.mem_cons.mp he
    · cases ht
    · exact not_cursor_of_onSpool (saveSpool_onSpool _ _ _) e he text ht

/-- The batch of the cycle reaches from the stored cursor to the last of its entries. -/
theorem reached_ship (hK : TornEarlier K) (h : Covered K p₀ w) {j : Log Record} {r : Reading}
    {limit : Int} {o : Entry Record} {es : List Effect} (hj : w.journal.Extends j)
    (hlast : (collect K r j (readCursor w) limit).events.getLast? = some o)
    (hjournal : (run apply w es).journal = j.appendAll (collect K r j (readCursor w) limit).arrived)
    (htaken : .json (collect K r j (readCursor w) limit).events ∈ (run apply w es).taken) :
    Reached p₀ (run apply w es) o := by
  obtain ⟨e, he, hne, hpre⟩ := h
  have hbatch := collect_prefix K r j (readCursor w) limit
  have hmem := List.mem_of_getLast? hlast
  have hstart := startOf_torn_le hK r j (hj.mem he.mem) he.wanted hne hpre
  obtain ⟨ho, _, hw⟩ := Log.mem_wantedFrom.mp (hbatch.subset hmem)
  refine ⟨by rw [hjournal]; exact ho, hw, fun f hf hfw hlo hhi => ?_⟩
  rw [hjournal] at hf
  by_cases hold : f.position ≤ e.position
  · have hlt := w.journal.bounded e he.mem
    have hext : j.Extends (j.appendAll (collect K r j (readCursor w) limit).arrived) :=
      Log.extends_appendAll _ _
    have hltj := j.bounded e (hj.mem he.mem)
    have hfw' := hj.mem_of_lt (hext.mem_of_lt hf (by omega)) (by omega)
    exact (he.acknowledged f hfw' hfw hlo hold).run es
  · have hfrom := Log.mem_wantedFrom.mpr ⟨hf, (by omega : startOf K r j (readCursor w) ≤ f.position), hfw⟩
    exact ⟨_, htaken, Log.mem_of_prefix hbatch hmem hfrom hhi⟩

theorem not_cursor_arrived (rs : List Record) :
    ∀ e ∈ rs.map Effect.arrived, ∀ text, e ≠ .cursorWritten text := by
  intro e he text ht
  obtain ⟨a, _, rfl⟩ := List.mem_map.mp he
  cases ht

theorem not_cursor_append {as bs : List Effect} (ha : ∀ e ∈ as, ∀ text, e ≠ .cursorWritten text)
    (hb : ∀ e ∈ bs, ∀ text, e ≠ .cursorWritten text) :
    ∀ e ∈ as ++ bs, ∀ text, e ≠ .cursorWritten text :=
  List.forall_mem_append.mpr ⟨ha, hb⟩

/-- A cycle writes the cursor last, and only one that has been reached. -/
theorem cycle_cases (hK : TornEarlier K) (h : Covered K p₀ w) (limit : Int) (c : Cycle) :
    (∀ e ∈ cycle K limit w c, ∀ text, e ≠ .cursorWritten text) ∨
      ∃ es o, cycle K limit w c = es ++ [.cursorWritten (K.text o.position ++ ['\n'])] ∧
        (∀ e ∈ es, ∀ text, e ≠ .cursorWritten text) ∧ Reached p₀ (run apply w es) o := by
  let v : World := { w with journal := w.journal.appendAll c.before }
  have hbefore := not_cursor_arrived c.before
  have hdrained := not_cursor_of_onSpool (drainSpool_onSpool c v)
  unfold cycle shipLogs
  simp only
  split
  swap
  · exact .inl (not_cursor_append hbefore (not_cursor_append hdrained (by simp)))
  · unfold shipJournal
    split
    · exact .inl (not_cursor_append hbefore (not_cursor_append hdrained (by simp)))
    · simp only
      let r := collect K c.reading v.journal (readCursor w) limit
      have harrived := not_cursor_arrived r.arrived
      split
      · exact .inl (not_cursor_append hbefore
          (not_cursor_append hdrained (not_cursor_append harrived (by simp))))
      · obtain hship | ⟨o, hlast, hship⟩ := ship_cases K c r.events
        · exact .inl (not_cursor_append hbefore
            (not_cursor_append hdrained (not_cursor_append harrived hship)))
        · right
          let es : List Effect := c.before.map .arrived ++ ((drainSpool c v).1 ++
            (r.arrived.map .arrived ++ [.sent (.json r.events) true]))
          have hrun : run apply w es = apply (run apply (run apply v (drainSpool c v).1)
              (r.arrived.map .arrived)) (.sent (.json r.events) true) := by
            simp only [es, run_append, run_arrived w c.before, run_cons, run_nil]
            rfl
          obtain ⟨hj, _⟩ := run_onSpool v (drainSpool_onSpool c v)
          refine ⟨es, o, ?_, ?_, reached_ship hK h (Log.extends_appendAll _ _) hlast ?_ ?_⟩
          · simp only [es, List.append_assoc]
            exact congrArg _ (congrArg _ (congrArg _ hship))
          · refine not_cursor_append hbefore (not_cursor_append hdrained
              (not_cursor_append harrived ?_))
            simp
          · rw [hrun, run_arrived, (apply_onSpool _ (e := .sent (.json r.events) true) rfl).1, hj]
          · rw [hrun]
            exact List.mem_append_right _ (List.mem_singleton_self _)

/-! ## System calls -/

/-- Two worlds that differ in their spools alone. -/
structure SameShipped (w w' : World) : Prop where
  journal : w'.journal = w.journal
  cursorFile : w'.cursorFile = w.cursorFile
  taken : w'.taken = w.taken

theorem SameShipped.apply {w w' : World} (h : SameShipped w w') (e : Effect) :
    SameShipped (apply w e) (apply w' e) := by
  obtain ⟨hj, hc, ht⟩ := h
  cases e with
  | arrived r => exact ⟨by simp only [LogShipping.apply, hj], hc, ht⟩
  | sent p accepted =>
    cases accepted with
    | true => exact ⟨hj, hc, by simp only [LogShipping.apply, if_true, ht]⟩
    | false => exact ⟨hj, hc, ht⟩
  | cursorWritten text => exact ⟨hj, rfl, ht⟩
  | _ => exact ⟨hj, hc, ht⟩

/-- When all of its calls are done, an effect has happened. -/
theorem sameShipped_calls (n : Nat) (w : World) (e : Effect) :
    SameShipped (LogShipping.apply w e) (run LogShipping.apply w (calls n e)) := by
  cases e with
  | saved f =>
    obtain ⟨name, payload⟩ := f
    cases payload <;> exact ⟨rfl, rfl, rfl⟩
  | _ => exact ⟨rfl, rfl, rfl⟩

theorem sameShipped_run (n : Nat) {w w' : World} (h : SameShipped w w') (es : List Effect) :
    SameShipped (run LogShipping.apply w es) (run LogShipping.apply w' (es.flatMap (calls n))) := by
  induction es generalizing w w' with
  | nil => exact h
  | cons e es ih =>
    rw [List.flatMap_cons, run_append]
    refine ih ?_
    have hcalls := sameShipped_calls n w' e
    have he := h.apply e
    exact ⟨hcalls.journal.trans he.journal, hcalls.cursorFile.trans he.cursorFile,
      hcalls.taken.trans he.taken⟩

theorem SameShipped.reached {w w' : World} (h : SameShipped w w') {e : Entry Record}
    (he : Reached p₀ w e) : Reached p₀ w' e :=
  he.mono (by rw [h.journal]; exact Log.Extends.refl _) (by rw [h.taken])

theorem not_cursor_calls (n : Nat) {es : List Effect} (h : ∀ e ∈ es, ∀ text, e ≠ .cursorWritten text) :
    ∀ e ∈ es.flatMap (calls n), ∀ text, e ≠ .cursorWritten text := by
  rintro e he text rfl
  obtain ⟨e, hin, he⟩ := List.mem_flatMap.mp he
  cases e with
  | cursorWritten text => exact h _ hin text rfl
  | saved f =>
    obtain ⟨name, payload⟩ := f
    cases payload <;> simp [calls] at he
  | _ => simp [calls] at he

/-- Some of the bytes of a cursor, the first one among them. -/
theorem strip_torn (K : Cursors) (p n : Nat) (hn : (K.text p ++ ['\n']).take n ≠ []) :
    Text.strip goSpace ((K.text p ++ ['\n']).take n) ≠ [] ∧
      Text.strip goSpace ((K.text p ++ ['\n']).take n) <+: K.text p := by
  by_cases hle : n ≤ (K.text p).length
  · rw [List.take_append_of_le_length hle] at hn ⊢
    have hstrip : Text.strip goSpace ((K.text p).take n) = (K.text p).take n := by
      obtain ⟨c, t, hct⟩ := List.exists_cons_of_ne_nil hn
      refine Text.strip_eq_self (by rw [hct]; rfl) ?_ (List.getLast?_eq_some_getLast hn) ?_
      · exact K.text_no_space p c (List.mem_of_mem_take (hct ▸ List.mem_cons_self))
      · exact K.text_no_space p _ (List.mem_of_mem_take (List.getLast_mem hn))
    rw [hstrip]
    exact ⟨hn, List.take_prefix _ _⟩
  · rw [List.take_of_length_le (by simp; omega), strip_cursor]
    exact ⟨K.text_ne_nil p, List.prefix_refl _⟩

/-- A file with the beginning of a cursor that has been reached. -/
theorem covered_written {o : Entry Record} (ho : Reached p₀ w o) {text : List Char} (hne : text ≠ [])
    (hpre : text <+: K.text o.position ++ ['\n']) (v : World)
    (hv : v.journal = w.journal ∧ v.taken = w.taken) :
    Covered K p₀ (LogShipping.apply v (.cursorWritten text)) := by
  obtain ⟨hj, ht⟩ := hv
  have htake := List.prefix_iff_eq_take.mp hpre
  have hstrip := strip_torn K o.position text.length (htake ▸ hne)
  rw [← htake] at hstrip
  refine ⟨o, ho.mono ?_ ?_, hstrip⟩
  · rw [show (LogShipping.apply v (.cursorWritten text)).journal = w.journal from hj]
    exact Log.Extends.refl _
  · rw [show (LogShipping.apply v (.cursorWritten text)).taken = w.taken from ht]

/-- The calls that write a cursor, cut short or not, leave a file that is empty or holds the
beginning of it. -/
theorem covered_turn (hK : TornEarlier K) {limit : Int} (h : Covered K p₀ w) {t : Turn}
    (ht : LeavesCursor K limit w t) : Covered K p₀ (turn K limit w t) := by
  have hpre : done K limit w t <+: (cycle K limit w t.cycle).flatMap (calls t.bytes) := cut_initial _ _
  unfold LeavesCursor at ht
  unfold turn
  generalize done K limit w t = es' at *
  obtain hcycle | ⟨es, o, hcycle, hes, ho⟩ := cycle_cases hK h limit t.cycle
  · exact covered_run h fun e he => not_cursor_calls t.bytes hcycle e (hpre.subset he)
  · let text := K.text o.position ++ ['\n']
    have hsame := sameShipped_run t.bytes (⟨rfl, rfl, rfl⟩ : SameShipped w w) es
    have hfull : (cycle K limit w t.cycle).flatMap (calls t.bytes) =
        es.flatMap (calls t.bytes) ++ [.cursorWritten []] ++ [.cursorWritten (text.take t.bytes)] ++
          [.cursorWritten text] := by
      rw [hcycle, List.flatMap_append, List.append_assoc, List.append_assoc]
      rfl
    rw [hfull] at hpre
    obtain rfl | hpre := List.prefix_concat_iff.mp hpre
    · rw [run_append]
      refine covered_written (hsame.reached ho) (by simp) (List.prefix_refl _) _ ⟨?_, ?_⟩
      · simp only [run_append, run_cons, run_nil, LogShipping.apply]
      · simp only [run_append, run_cons, run_nil, LogShipping.apply]
    obtain rfl | hpre := List.prefix_concat_iff.mp hpre
    · rw [run_append]
      refine covered_written (hsame.reached ho) ?_ (List.take_prefix _ _) _ ⟨?_, ?_⟩
      · intro hnil
        rw [hnil] at ht
        simp at ht
      · simp only [run_append, run_cons, run_nil, LogShipping.apply]
      · simp only [run_append, run_cons, run_nil, LogShipping.apply]
    obtain rfl | hpre := List.prefix_concat_iff.mp hpre
    · simp at ht
    · exact covered_run h fun e he => not_cursor_calls t.bytes hes e (hpre.subset he)

/-! ## Runs -/

/-- From a stored cursor, in any run of cycles that are cut short or not, none of which
leaves the cursor file empty: the next collection never starts behind a wanted entry that
the server has not taken. -/
theorem nextCollect_run (hK : TornEarlier K) (limit : Int) (w : World) (e₀ : Entry Record)
    (he₀ : e₀ ∈ w.journal.entries) (hw₀ : matching e₀.record = true)
    (hcursor : w.cursorFile = some (K.text e₀.position ++ ['\n'])) (turns : List Turn)
    (ht : Along (turn K limit) (LeavesCursor K limit) w turns) :
    Always (turn K limit) (NextCollect K e₀.position) w turns := by
  have hread : readCursor w = K.text e₀.position := by
    rw [readCursor, hcursor]
    exact strip_cursor K e₀.position
  have hstart : Covered K e₀.position w := by
    refine ⟨e₀, ⟨he₀, hw₀, fun f _ _ hlo hhi => by omega⟩, ?_, ?_⟩
    · rw [hread]
      exact K.text_ne_nil _
    · rw [hread]
  have hcovered : Always (turn K limit) (Covered K e₀.position) w turns :=
    always_invariant (fun _ _ h ht => covered_turn hK h ht) hstart ht
  rw [always_iff] at hcovered ⊢
  exact fun ts hts => (hcovered ts hts).nextCollect hK

/-! ## A cycle that is killed -/

/-- More digits make no smaller number. -/
theorem ofDigitChars_le (s t : List Char) :
    Nat.ofDigitChars 10 s 0 ≤ Nat.ofDigitChars 10 (s ++ t) 0 := by
  rw [Nat.ofDigitChars_append, Nat.ofDigitChars_eq_ofDigitChars_zero (l := t)]
  have hpos : 0 < 10 ^ t.length := Nat.pow_pos (by decide)
  calc Nat.ofDigitChars 10 s 0
    _ ≤ 10 ^ t.length * Nat.ofDigitChars 10 s 0 := Nat.le_mul_of_pos_left _ hpos
    _ ≤ _ := Nat.le_add_right _ _

theorem tornEarlier_decimal : TornEarlier decimal := by
  rintro p s q ⟨t, hst⟩ hq
  simp only [decimal] at hq hst
  split at hq
  · cases hq
    calc Nat.ofDigitChars 10 s 0
      _ ≤ Nat.ofDigitChars 10 (s ++ t) 0 := ofDigitChars_le s t
      _ = p := by rw [hst, Text.str_natCast, Nat.ofDigitChars_ten_toDigits]
  · cases hq

/-- A cycle ships the entry that arrives before it, and is cut short or not. -/
def shipping (stopped : Option Nat) : Turn := ⟨onlySends [sshRecord] true true, 0, stopped⟩

theorem leavesCursor_shipping : Along (turn decimal 500) (LeavesCursor decimal 500) oneEntry
    [shipping (some 2), shipping none] := by
  refine ⟨?_, ?_, trivial⟩
  · unfold LeavesCursor
    decide +kernel
  · unfold LeavesCursor
    decide +kernel

/-- A cycle is killed before it writes the cursor, and the next one ships two entries. -/
theorem nextCollect_shipping : Always (turn decimal 500) (NextCollect decimal 0) oneEntry
    [shipping (some 2), shipping none] :=
  nextCollect_run tornEarlier_decimal 500 oneEntry ⟨0, sshRecord⟩ (by decide) (by decide) rfl _
    leavesCursor_shipping

/-- A kill between the truncation and the write leaves an empty cursor, and the next
collection starts behind an entry that nobody has sent. -/
theorem empty_cursor_skips :
    ¬ ∀ (K : Cursors) (limit : Int) (w : World) (e₀ : Entry Record) (turns : List Turn),
      TornEarlier K → e₀ ∈ w.journal.entries → matching e₀.record = true →
      w.cursorFile = some (K.text e₀.position ++ ['\n']) →
      Always (turn K limit) (NextCollect K e₀.position) w turns := by
  intro h
  have hlast := always_last (h decimal 500 oneEntry ⟨0, sshRecord⟩ [shipping (some 3)]
    tornEarlier_decimal (by decide) (by decide) rfl)
  have hreading := hlast [sshRecord] (onlySends [] true true).reading ⟨2, sshRecord⟩ (by decide +kernel)
    (by decide) (by decide) (by decide +kernel)
  obtain ⟨batch, hbatch, hmem⟩ := hreading
  have htaken : (run (turn decimal 500) oneEntry [shipping (some 3)]).taken =
      [.json [⟨1, sshRecord⟩]] := by decide +kernel
  rw [htaken, List.mem_singleton, Payload.json.injEq] at hbatch
  rw [hbatch] at hmem
  exact absurd hmem (by decide)

end Keywarden.CursorCrash
