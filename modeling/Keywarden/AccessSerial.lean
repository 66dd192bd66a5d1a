import Keywarden.AccessSteps
import Keywarden.Serialization
import Keywarden.Transitions

/-!
# One access request under concurrent writes

`update_request` writes back every column of the row it has read, and the sweep the
status of a row it has selected. Each is as good as a call of its own, made at the moment
of the write, when nobody has changed what it goes by in between.
-/
namespace Keywarden.AccessSerial

open Rows Transitions Serialization Access AccessSteps
open AccessRun hiding World Event step

/-! ## Calls one at a time -/

/-- What a call does to one row when it is carried out at one go. -/
def rowEffect (cfg : Settings) (now : Instant) (x : Nat) (call : Call) (o : AccessRequest) :
    AccessRequest :=
  match call with
  | .createRequest _ _ => o
  | .updateRequest caller requestId payload =>
    if caller.isAuthenticated = true ∧ requestId = x then
      match applyUpdate cfg caller now payload o with
      | .ok r => r
      | .error _ => o
    else o
  | .expireAccessRequests => if isExpiring now o then (markExpired now).apply o else o

theorem find_expireOne (now : Instant) (db : Db) (r : AccessRequest) (x : Nat) :
    (expireOne now db r).accessRequests.find x =
      (db.accessRequests.find x).map fun o => if o.id = r.id then (markExpired now).apply o else o := by
  simp only [expireOne, syncServerViewPerm_accessRequests, assignAccessRequestPerms_accessRequests,
    Table.find_update, decide_eq_true_eq]

/-- The loop marks the row when it comes to it. -/
theorem find_foldl_expireOne (now : Instant) (l : List AccessRequest) (db : Db) {x : Nat}
    {o : AccessRequest} (ho : db.accessRequests.find x = some o) :
    (l.foldl (expireOne now) db).accessRequests.find x =
      some (if ∃ r ∈ l, r.id = x then (markExpired now).apply o else o) := by
  induction l generalizing db o with
  | nil => simpa using ho
  | cons r l ih =>
    have hid : o.id = x := ((Table.find_eq_some _ _ _).mp ho).2
    have hnext : (expireOne now db r).accessRequests.find x =
        some (if o.id = r.id then (markExpired now).apply o else o) := by
      rw [find_expireOne, ho, Option.map_some]
    rw [List.foldl_cons, ih _ hnext, hid]
    simp only [List.exists_mem_cons_iff, eq_comm (a := x)]
    by_cases hr : r.id = x <;> by_cases hl : ∃ q ∈ l, q.id = x <;> simp [hr, hl, markExpired]

theorem exists_expiring_iff {now : Instant} {db : Db} {x : Nat} {o : AccessRequest}
    (ho : db.accessRequests.find x = some o) :
    (∃ r ∈ expiring now db, r.id = x) ↔ isExpiring now o = true := by
  obtain ⟨hmem, hid⟩ := (Table.find_eq_some _ _ _).mp ho
  constructor
  · rintro ⟨r, hr, hrid⟩
    obtain ⟨hrmem, hx⟩ := (AccessRun.mem_expiring now db r).mp hr
    rwa [Table.eq_of_key _ hmem hrmem (hid.trans hrid.symm)]
  · intro h
    exact ⟨o, (AccessRun.mem_expiring now db o).mpr ⟨hmem, h⟩, hid⟩

theorem find_updateRequest (cfg : Settings) (caller : Caller) (now : Instant) (requestId : Nat)
    (payload : AccessRequestUpdateIn) (db : Db) {x : Nat} {o : AccessRequest}
    (ho : db.accessRequests.find x = some o) :
    (apply cfg now db (.updateRequest caller requestId payload)).accessRequests.find x =
      some (rowEffect cfg now x (.updateRequest caller requestId payload) o) := by
  simp only [apply, rowEffect, updateRequest]
  by_cases hauth : caller.isAuthenticated = true
  · simp only [hauth, Bool.not_true, Bool.false_eq_true, if_false, true_and]
    cases hf : db.accessRequests.find requestId with
    | none =>
      have hne : requestId ≠ x := by
        rintro rfl
        rw [ho] at hf
        cases hf
      simp only [hne, if_false]
      exact ho
    | some row =>
      have hrow : requestId = x → row = o := by
        rintro rfl
        rw [ho] at hf
        exact (Option.some.inj hf).symm
      simp only
      cases ha : applyUpdate cfg caller now payload row with
      | error e =>
        by_cases hx : requestId = x
        · rw [hrow hx] at ha
          simp only [hx, if_true, ha]
          exact ho
        · simp only [hx, if_false]
          exact ho
      | ok r =>
        have hid : r.id = requestId :=
          (applyUpdate_frame ha).1.trans ((Table.find_eq_some _ _ _).mp hf).2
        simp only [syncServerViewPerm_accessRequests, saveRequest,
          assignAccessRequestPerms_accessRequests, Table.find_save, key_accessRequest, hid, ho,
          Option.map_some]
        by_cases hx : requestId = x
        · rw [hrow hx] at ha
          simp only [hx, if_true, ha]
        · simp only [hx, if_false]
  · simp only [hauth, Bool.not_false, if_true, Bool.false_eq_true, false_and, if_false]
    exact ho

/-- Carried out at one go, a call does to a row what it does whatever the other rows
are. -/
theorem find_apply (cfg : Settings) (now : Instant) (call : Call) (db : Db) {x : Nat}
    {o : AccessRequest} (ho : db.accessRequests.find x = some o) :
    (apply cfg now db call.op).accessRequests.find x = some (rowEffect cfg now x call o) := by
  cases call with
  | createRequest caller payload =>
    simp only [Call.op, apply, rowEffect, createRequest]
    split
    · next r db' hc =>
      split at hc
      · cases hc
      · split at hc
        · cases hc
        · split at hc
          · cases hc
          · cases hc
            rw [assignAccessRequestPerms_accessRequests]
            exact Table.find_create_of_some _ _ (fun _ => rfl) ho
    · exact ho
  | updateRequest caller requestId payload =>
    exact find_updateRequest cfg caller now requestId payload db ho
  | expireAccessRequests =>
    simp only [Call.op, apply, rowEffect, expireAccessRequests]
    rw [find_foldl_expireOne now _ db ho]
    simp only [exists_expiring_iff ho]

/-! ## Which rows a call writes -/

/-- Saves come from updates, transactions from the sweep. -/
def sentBy (call : Call) : Stmt → Prop
  | .saveRequest _ => ∃ caller requestId payload, call = .updateRequest caller requestId payload
  | .commit => call = .expireAccessRequests
  | _ => True

/-- What is pending of a call is the end of what it was accepted to write. -/
structure Origin (cfg : Settings) (t : Progress) : Prop where
  sentBy : ∀ s ∈ t.todo, sentBy t.call s
  pending : ∃ db todo, prepare cfg t.now db t.call = .ok todo ∧
    t.pending <:+ todo.filterMap Stmt.target

theorem nodup_expiring (now : Instant) (db : Db) :
    ((expiring now db).map AccessRequest.id).Nodup := by
  have hperm := (List.perm_insertionSort (fun a b : AccessRequest => b.requestedAt ≤ a.requestedAt)
    (db.accessRequests.filter (isExpiring now))).map AccessRequest.id
  rw [expiring, hperm.nodup_iff]
  exact db.accessRequests.nodup.sublist (List.filter_sublist.map _)

theorem prepare_nodup {cfg : Settings} {now : Instant} {db : Db} {call : Call} {todo : List Stmt}
    (h : prepare cfg now db call = .ok todo) :
    ((todo.filterMap Stmt.target).map AccessRequest.id).Nodup := by
  obtain ⟨_, _, _, _, rfl⟩ | ⟨_, _, _, _, _, _, _, _, _, rfl⟩ | ⟨_, rfl⟩ := prepare_cases h
  · exact List.nodup_nil
  · exact List.nodup_singleton _
  · rw [filterMap_target_flatMap]
    exact nodup_expiring now db

theorem prepare_sentBy {cfg : Settings} {now : Instant} {db : Db} {call : Call} {todo : List Stmt}
    (h : prepare cfg now db call = .ok todo) : ∀ s ∈ todo, sentBy call s := by
  obtain ⟨_, _, _, rfl, rfl⟩ | ⟨caller, requestId, payload, _, r, rfl, _, _, _, rfl⟩ | ⟨rfl, rfl⟩ :=
    prepare_cases h
  · intro s hs
    rw [List.mem_singleton.mp hs]
    trivial
  · intro s hs
    simp only [updateStmts, syncStmts, List.mem_cons, List.mem_append, List.not_mem_nil, or_false] at hs
    obtain rfl | (rfl | rfl) | rfl | rfl := hs
    · exact ⟨caller, requestId, payload, rfl⟩
    all_goals trivial
  · intro s hs
    obtain ⟨r, _, hs⟩ := List.mem_flatMap.mp hs
    simp only [expireStmts, syncStmts, List.mem_cons, List.mem_append, List.not_mem_nil,
      or_false] at hs
    obtain rfl | (rfl | rfl) | rfl | rfl | rfl := hs <;> trivial

theorem Origin.start {cfg : Settings} {now : Instant} {db : Db} {call : Call} {todo : List Stmt}
    (h : prepare cfg now db call = .ok todo) : Origin cfg ⟨call, now, todo, false, none, false⟩ :=
  ⟨prepare_sentBy h, db, todo, h, List.suffix_refl _⟩

variable {n : Nat}

theorem Origin.outcome {cfg : Settings} {w : World n} {i : Fin n} {now : Instant} {t t' : Progress}
    {db : Db} (h : Origin cfg t) (hout : Outcome w i now t db t') : Origin cfg t' := by
  constructor
  · rw [hout.call_eq]
    obtain ⟨s, hs⟩ | ⟨r, r', _, hc⟩ := hout.todo_cases
    · exact fun s' hs' => h.sentBy s' (hs ▸ List.mem_cons_of_mem s hs')
    · rw [hc]
      intro s hs
      simp only [createdStmts, syncStmts, List.mem_cons, List.not_mem_nil, or_false] at hs
      obtain rfl | rfl | rfl | rfl := hs <;> trivial
  · obtain ⟨db₀, todo, hprep, hsuffix⟩ := h.pending
    rw [hout.call_eq, hout.now_eq]
    refine ⟨db₀, todo, hprep, ?_⟩
    obtain ⟨hp, _⟩ | ⟨r, _, _, hp, _⟩ | ⟨b, _, _, hp, _⟩ := hout.pending_cases
    · rwa [hp]
    · exact (List.suffix_cons r t'.pending).trans (hp ▸ hsuffix)
    · exact (List.suffix_cons b.row t'.pending).trans (hp ▸ hsuffix)

theorem Origin.nodup {cfg : Settings} {t : Progress} (h : Origin cfg t) :
    (t.pending.map AccessRequest.id).Nodup := by
  obtain ⟨db, todo, hprep, hsuffix⟩ := h.pending
  exact (prepare_nodup hprep).sublist (hsuffix.sublist.map _)

/-- What an update is about to save is what it has made of the row it read. -/
theorem Origin.saved {cfg : Settings} {t : Progress} {r : AccessRequest} {l : List AccessRequest}
    (h : Origin cfg t) (hp : t.pending = r :: l) {caller : Caller} {requestId : Nat}
    {payload : AccessRequestUpdateIn} (hcall : t.call = .updateRequest caller requestId payload) :
    caller.isAuthenticated = true ∧ r.id = requestId ∧
      ∃ row : AccessRequest, row.id = requestId ∧ applyUpdate cfg caller t.now payload row = .ok r := by
  obtain ⟨db, todo, hprep, hsuffix⟩ := h.pending
  obtain ⟨_, _, _, hc, _⟩ | ⟨caller', requestId', payload', row, r', hc, hauth, hrow, ha, rfl⟩ | ⟨hc, _⟩ :=
    prepare_cases hprep
  · rw [hcall] at hc
    cases hc
  · rw [hcall] at hc
    cases hc
    have hr : r = r' := by
      have hmem : r ∈ [r'] := hsuffix.subset (hp ▸ List.mem_cons_self)
      exact List.mem_singleton.mp hmem
    have hid : row.id = requestId := ((Table.find_eq_some _ _ _).mp hrow).2
    rw [hr]
    exact ⟨hauth, (applyUpdate_frame ha).1.trans hid, row, hid, ha⟩
  · rw [hcall] at hc
    cases hc

/-! ## Writes that find what they go by unchanged -/

/-- The stored row `o` after a write of the columns that the payload sets. -/
def setColumns (payload : AccessRequestUpdateIn) (r o : AccessRequest) : AccessRequest :=
  let o := if payload.expiresAt.isSome then { o with expiresAt := r.expiresAt } else o
  if payload.status.isSome then
    { o with status := r.status, decidedAt := r.decidedAt, decidedBy := r.decidedBy }
  else o

/-- Saving `r` over `o` writes no column but those the call sets, and what cancels
without being an administrator finds the request pending. -/
def Untouched : Call → AccessRequest → AccessRequest → Prop
  | .updateRequest caller _ payload, r, o =>
    setColumns payload r o = r ∧
      (caller.hasPerm .changeAccessrequest = false → o.status = .pending)
  | _, _, _ => True

def running : Task → Option Progress
  | .started t => if t.aborted then none else some t
  | _ => none

def nextSave (t : Progress) : Option AccessRequest :=
  match t.todo with
  | .saveRequest r :: _ => some r
  | _ => none

def nextCommit (t : Progress) : Option AccessRequest :=
  match t.todo with
  | .commit :: _ => t.block.map Block.row
  | _ => none

/-- A save of the row is of a copy that is still current, and a sweep that marks the row
would still select it. -/
def Fresh (x : Nat) (w : World n) : Event n → Prop
  | .advance i _ => ∀ t ∈ running (w.tasks i), ∀ o ∈ w.db.accessRequests.find x,
      (∀ r ∈ nextSave t, r.id = x → ¬ w.rowLocked i x → Untouched t.call r o) ∧
      ∀ r ∈ nextCommit t, r.id = x → isExpiring t.now o = true
  | _ => True

instance : (call : Call) → (r o : AccessRequest) → Decidable (Untouched call r o)
  | .createRequest _ _, _, _ | .expireAccessRequests, _, _ => isTrue trivial
  | .updateRequest _ _ _, _, _ => inferInstanceAs (Decidable (_ = _ ∧ (_ → _)))

instance (x : Nat) (w : World n) : (e : Event n) → Decidable (Fresh x w e)
  | .advance _ _ => inferInstanceAs (Decidable (∀ _ ∈ _, ∀ _ ∈ _, _ ∧ _))
  | .start _ _ _ | .abort _ => isTrue trivial

/-- Applied to a row that differs in what the call does not set, the call sets the same. -/
theorem applyUpdate_setColumns {cfg : Settings} {caller : Caller} {now : Instant}
    {payload : AccessRequestUpdateIn} {row r o : AccessRequest}
    (h : applyUpdate cfg caller now payload row = .ok r) (hid : o.id = row.id)
    (hpending : caller.hasPerm .changeAccessrequest = false → o.status = .pending) :
    applyUpdate cfg caller now payload o = .ok (setColumns payload r o) := by
  unfold applyUpdate at h ⊢
  rw [hid]
  split at h
  · cases h
  · next hobj =>
    simp only at h ⊢
    split at h
    · cases h
    · next hfields =>
      obtain ⟨q, hq, hr⟩ := bind_ok h
      rw [if_neg hobj, if_neg hfields]
      obtain ⟨he, rfl⟩ | ⟨d, he, hadmin, rfl⟩ := setExpiry_ok hq
      · have hexpiry : setExpiry cfg (caller.hasPerm .changeAccessrequest) payload o = .ok o := by
          simp only [setExpiry, he]
        simp only [hexpiry, Except.bind]
        obtain ⟨hs, rfl⟩ | ⟨hadmin, v, s, hs, hv, rfl⟩ | ⟨hadmin, hs, _, rfl⟩ := setStatus_ok hr
        · simp [setStatus, setColumns, he, hs]
        · simp [setStatus, setColumns, he, hs, hadmin, hv]
        · simp [setStatus, setColumns, he, hs, hadmin, hpending hadmin]
      · have hexpiry : setExpiry cfg (caller.hasPerm .changeAccessrequest) payload o =
            .ok { o with expiresAt := some (cfg.toInstant d) } := by
          simp only [setExpiry, he, hadmin, if_true]
        simp only [hexpiry, Except.bind]
        obtain ⟨hs, rfl⟩ | ⟨_, v, s, hs, hv, rfl⟩ | ⟨hnot, _, _, _⟩ := setStatus_ok hr
        · simp [setStatus, setColumns, he, hs]
        · simp [setStatus, setColumns, he, hs, hadmin, hv]
        · rw [hadmin] at hnot
          cases hnot

/-- What a call that overwrites `o` with `o'` may do: keep the status if it only sets the
expiry, cancel what is pending, expire what has run out. -/
def Harmless : Call → Instant → AccessRequest → AccessRequest → Prop
  | .createRequest _ _, _, _, _ => False
  | .updateRequest caller _ payload, _, o, o' =>
    (payload.status = none → o'.status = o.status) ∧
      (caller.hasPerm .changeAccessrequest = false → o.status = .pending)
  | .expireAccessRequests, now, o, _ => isExpiring now o = true

/-- Whatever changes the row is the write of a call that does no harm by it. -/
def NothingLost (cfg : Settings) (x : Nat) (w : World n) (e : Event n) : Prop :=
  ∀ o o', w.db.accessRequests.find x = some o →
    (step cfg w e).db.accessRequests.find x = some o' → o' ≠ o →
    ∃ i now t, e = .advance i now ∧ w.tasks i = .started t ∧ Harmless t.call t.now o o'

/-- The save of a current copy is what the call does to the stored row. -/
theorem save_of_untouched {cfg : Settings} {t : Progress} {r o : AccessRequest} {l : List AccessRequest}
    (horigin : Origin cfg t) (hp : t.pending = r :: l) (hsave : .saveRequest r ∈ t.todo)
    (hid : o.id = r.id) (huntouched : Untouched t.call r o) :
    rowEffect cfg t.now r.id t.call o = r ∧ Harmless t.call t.now o r := by
  obtain ⟨caller, requestId, payload, hcall⟩ : sentBy t.call (.saveRequest r) :=
    horigin.sentBy _ hsave
  obtain ⟨hauth, hrid, row, hrow, ha⟩ := horigin.saved hp hcall
  rw [hcall] at huntouched ⊢
  obtain ⟨hcolumns, hpending⟩ := huntouched
  have happly : applyUpdate cfg caller t.now payload o = .ok r := by
    rw [applyUpdate_setColumns ha (hid.trans (hrid.trans hrow.symm)) hpending, hcolumns]
  refine ⟨by simp only [rowEffect, hauth, hrid, and_self, if_true, happly], ?_, hpending⟩
  intro hnone
  rw [← hcolumns]
  simp only [setColumns, hnone, Option.isSome_none, Bool.false_eq_true, if_false]
  split <;> rfl

/-- A statement leaves the row alone, or is the write of a call that takes effect on it
by this. -/
theorem outcome_row {cfg : Settings} {w : World n} {i : Fin n} {now : Instant} {t t' : Progress}
    {db : Db} (hi : w.tasks i = .started t) (halive : t.aborted = false) (horigin : Origin cfg t)
    (hout : Outcome w i now t db t') {x : Nat} {o : AccessRequest}
    (ho : w.db.accessRequests.find x = some o) (hfresh : Fresh x w (.advance i now)) :
    (db.accessRequests.find x = some o ∧
      (x ∈ t'.pending.map AccessRequest.id ↔ x ∈ t.pending.map AccessRequest.id)) ∨
    (db.accessRequests.find x = some (rowEffect cfg t.now x t.call o) ∧
      x ∈ t.pending.map AccessRequest.id ∧ x ∉ t'.pending.map AccessRequest.id ∧
      Harmless t.call t.now o (rowEffect cfg t.now x t.call o)) := by
  have hid : o.id = x := ((Table.find_eq_some _ _ _).mp ho).2
  have hnodup := horigin.nodup
  obtain ⟨hwrites, hcommits⟩ := hfresh t (by simp [running, hi, halive]) o ho
  obtain ⟨hp, ⟨r, _, hrows⟩ | hrows⟩ | ⟨r, hfree, htodo, hp, hrows⟩ | ⟨b, hb, ⟨rest, htodo⟩, hp, hrows⟩ :=
    hout.pending_cases
  · refine .inl ⟨?_, by rw [hp]⟩
    rw [hrows]
    exact Table.find_create_of_some _ _ (fun _ => rfl) ho
  · refine .inl ⟨?_, by rw [hp]⟩
    rw [hrows]
    exact ho
  · rw [hp, List.map_cons, List.nodup_cons] at hnodup
    rw [hp, hrows, Table.find_save, key_accessRequest, ho]
    by_cases hx : r.id = x
    · subst hx
      have huntouched := hwrites r (by simp [nextSave, htodo, updateStmts]) rfl hfree
      obtain ⟨heffect, hharm⟩ :=
        save_of_untouched horigin hp (htodo ▸ List.mem_cons_self) hid huntouched
      rw [heffect]
      exact .inr ⟨by simp, by simp, hnodup.1, hharm⟩
    · refine .inl ⟨by rw [if_neg hx], ?_⟩
      simp [Ne.symm hx]
  · rw [hp, List.map_cons, List.nodup_cons] at hnodup
    rw [hp, hrows, Table.find_update, ho]
    have hcall : t.call = .expireAccessRequests :=
      horigin.sentBy .commit (htodo ▸ List.mem_cons_self)
    by_cases hx : b.row.id = x
    · have hexp : isExpiring t.now o = true :=
        hcommits b.row (by simp [nextCommit, htodo, hb]) hx
      rw [hcall]
      refine .inr ⟨?_, ?_, ?_, hexp⟩
      · simp [rowEffect, hexp, hid, hx]
      · simp [hx]
      · rw [← hx]
        exact hnodup.1
    · refine .inl ⟨by simp [hid, Ne.symm hx], ?_⟩
      simp [Ne.symm hx]

/-! ## Whole runs -/

/-- The call has been accepted and has no write of the row before it. -/
def Accepted (x : Nat) : Task → Prop
  | .started t => x ∉ t.pending.map AccessRequest.id
  | _ => False

instance (x : Nat) : (task : Task) → Decidable (Accepted x task)
  | .idle | .rejected _ => isFalse id
  | .started t => inferInstanceAs (Decidable (x ∉ t.pending.map AccessRequest.id))

/-- The call of a task, carried out at one go with the clock it has had. -/
def effect (cfg : Settings) (w : World n) (i : Fin n) (db : Db) : Db :=
  match w.tasks i with
  | .started t => apply cfg t.now db t.call.op
  | _ => db

/-- The row is the one that the accepted calls leave, carried out in some order. -/
def RowSerial (cfg : Settings) (x : Nat) (db : Db) (w : World n) : Prop :=
  Serial (effect cfg w) (fun db => db.accessRequests.find x) (fun i => Accepted x (w.tasks i)) db
    (w.db.accessRequests.find x)

structure SerialInv (cfg : Settings) (x : Nat) (db : Db) (w : World n) : Prop where
  inv : Inv w
  origin : ∀ i t, w.tasks i = .started t → Origin cfg t
  exists_row : ∃ o, w.db.accessRequests.find x = some o
  serial : RowSerial cfg x db w

section Step

variable {cfg : Settings} {x : Nat} {db₀ : Db} {w : World n} {i : Fin n} {task : Task} {db : Db}

theorem origin_setTask (h : ∀ j t, w.tasks j = .started t → Origin cfg t)
    (hnew : ∀ t, task = .started t → Origin cfg t) :
    ∀ j t, (w.setTask i task db).tasks j = .started t → Origin cfg t := by
  intro j t hj
  by_cases hji : j = i
  · rw [hji, setTask_self] at hj
    exact hnew t hj
  · rw [setTask_of_ne w task db hji] at hj
    exact h j t hj

theorem effect_setTask_of_ne {j : Fin n} (hji : j ≠ i) :
    effect cfg (w.setTask i task db) j = effect cfg w j := by
  funext d
  simp only [effect, setTask_of_ne w task db hji]

/-- Nothing happens to the row, and the changed task is as accepted as it was. -/
theorem rowSerial_same (h : RowSerial cfg x db₀ w)
    (hrow : db.accessRequests.find x = w.db.accessRequests.find x)
    (haccepted : Accepted x task ↔ Accepted x (w.tasks i))
    (heffect : Accepted x (w.tasks i) → effect cfg (w.setTask i task db) i = effect cfg w i) :
    RowSerial cfg x db₀ (w.setTask i task db) := by
  unfold RowSerial
  rw [setTask_db, hrow]
  refine Serial.congr h ?_ ?_
  · intro j
    by_cases hji : j = i
    · rw [hji, setTask_self, haccepted]
    · rw [setTask_of_ne w task db hji]
  · intro j hj
    by_cases hji : j = i
    · rw [hji]
      rw [hji] at hj
      exact (heffect hj).symm
    · exact (effect_setTask_of_ne hji).symm

/-- The task becomes accepted, and the row changes as its call changes it. -/
theorem rowSerial_extend {t : Progress} {o : AccessRequest} (h : RowSerial cfg x db₀ w)
    (ho : w.db.accessRequests.find x = some o) (hnot : ¬ Accepted x (w.tasks i))
    (haccepted : Accepted x (.started t))
    (hrow : db.accessRequests.find x = some (rowEffect cfg t.now x t.call o)) :
    RowSerial cfg x db₀ (w.setTask i (.started t) db) := by
  unfold RowSerial
  rw [setTask_db]
  refine Serial.extend (k := i) h hnot ?_ ?_ ?_
  · intro j
    by_cases hji : j = i
    · rw [hji, setTask_self]
      exact ⟨fun _ => .inr rfl, fun _ => haccepted⟩
    · rw [setTask_of_ne w _ db hji]
      exact ⟨.inl, fun hj => hj.resolve_right hji⟩
  · intro j hj
    by_cases hji : j = i
    · rw [hji] at hj
      exact absurd hj hnot
    · exact (effect_setTask_of_ne hji).symm
  · intro order horder
    rw [ho] at horder
    simp only [effect, setTask_self]
    rw [find_apply cfg t.now t.call _ horder, hrow]

/-- A call that has no write of the row before it would not change it now. -/
theorem rowEffect_of_not_pending {now : Instant} {call : Call} {todo : List Stmt} {o : AccessRequest}
    (hprep : prepare cfg now w.db call = .ok todo) (ho : w.db.accessRequests.find x = some o)
    (hx : x ∉ (todo.filterMap Stmt.target).map AccessRequest.id) :
    rowEffect cfg now x call o = o := by
  obtain ⟨_, _, _, rfl, _⟩ | ⟨caller, requestId, payload, row, r, rfl, _, hrow, ha, rfl⟩ | ⟨rfl, rfl⟩ :=
    prepare_cases hprep
  · rfl
  · have hne : requestId ≠ x := by
      rintro rfl
      have hid : r.id = requestId :=
        (applyUpdate_frame ha).1.trans ((Table.find_eq_some _ _ _).mp hrow).2
      exact hx (List.mem_map.mpr ⟨r, List.mem_singleton_self r, hid⟩)
    simp only [rowEffect, hne, and_false, if_false]
  · rw [filterMap_target_flatMap] at hx
    have hnot : ¬ isExpiring now o = true := by
      rw [← exists_expiring_iff ho]
      rintro ⟨r, hr, hrid⟩
      exact hx (List.mem_map.mpr ⟨r, hr, hrid⟩)
    simp only [rowEffect, hnot, Bool.false_eq_true, if_false]

/-- A call that is accepted with no write of the row to make has taken its effect on it,
which is none. -/
theorem rowSerial_start {now : Instant} {call : Call} {todo : List Stmt} {o : AccessRequest}
    (h : RowSerial cfg x db₀ w) (hi : w.tasks i = .idle) (hprep : prepare cfg now w.db call = .ok todo)
    (ho : w.db.accessRequests.find x = some o) :
    RowSerial cfg x db₀ (w.setTask i (.started ⟨call, now, todo, false, none, false⟩) w.db) := by
  have hnot : ¬ Accepted x (w.tasks i) := by
    rw [hi]
    exact id
  by_cases hx : x ∈ (todo.filterMap Stmt.target).map AccessRequest.id
  · refine rowSerial_same h rfl ?_ fun ha => absurd ha hnot
    exact ⟨fun ha => absurd hx ha, fun ha => absurd ha hnot⟩
  · refine rowSerial_extend h ho hnot hx ?_
    rw [rowEffect_of_not_pending hprep ho hx]
    exact ho

theorem rowSerial_outcome {now : Instant} {t t' : Progress} {o : AccessRequest}
    (h : RowSerial cfg x db₀ w) (hi : w.tasks i = .started t) (halive : t.aborted = false)
    (horigin : Origin cfg t) (hout : Outcome w i now t db t')
    (ho : w.db.accessRequests.find x = some o) (hfresh : Fresh x w (.advance i now)) :
    (∃ o', db.accessRequests.find x = some o') ∧
      RowSerial cfg x db₀ (w.setTask i (.started t') db) := by
  obtain ⟨hrow, hiff⟩ | ⟨hrow, hbefore, hafter, _⟩ := outcome_row hi halive horigin hout ho hfresh
  · refine ⟨⟨o, hrow⟩, rowSerial_same h (hrow.trans ho.symm) ?_ fun _ => ?_⟩
    · rw [hi]
      exact not_congr hiff
    · funext d
      simp only [effect, setTask_self, hi, hout.call_eq, hout.now_eq]
  · refine ⟨⟨_, hrow⟩, rowSerial_extend h ho ?_ hafter ?_⟩
    · rw [hi]
      exact fun ha => ha hbefore
    · rw [hout.call_eq, hout.now_eq]
      exact hrow

end Step

theorem nothingLost_step (cfg : Settings) (x : Nat) (db₀ : Db) (w : World n) (e : Event n)
    (h : SerialInv cfg x db₀ w) (hfresh : Fresh x w e) : NothingLost cfg x w e := by
  intro o o' ho ho' hne
  have hsame : (step cfg w e).db = w.db → False := by
    intro hdb
    rw [hdb, ho] at ho'
    exact hne (Option.some.inj ho').symm
  obtain hs | ⟨i, now, call, err, rfl, hi, hs⟩ | ⟨i, now, call, todo, rfl, hi, _, hs⟩ |
    ⟨i, now, t, db, t', rfl, hi, halive, hout, hs⟩ | ⟨i, t, rfl, hi, hs⟩ := step_cases cfg w e h.inv
  · exact (hsame (by rw [hs])).elim
  · exact (hsame (by rw [hs]; rfl)).elim
  · exact (hsame (by rw [hs]; rfl)).elim
  · rw [hs, setTask_db] at ho'
    obtain ⟨hrow, _⟩ | ⟨hrow, _, _, hharm⟩ :=
      outcome_row hi halive (h.origin i t hi) hout ho hfresh
    · rw [hrow] at ho'
      exact absurd (Option.some.inj ho').symm hne
    · rw [hrow] at ho'
      rw [← Option.some.inj ho']
      exact ⟨i, now, t, rfl, hi, hharm⟩
  · exact (hsame (by rw [hs]; rfl)).elim

theorem serialInv_step (cfg : Settings) (x : Nat) (db₀ : Db) (w : World n) (e : Event n)
    (h : SerialInv cfg x db₀ w) (hfresh : Fresh x w e) : SerialInv cfg x db₀ (step cfg w e) := by
  have hinv := inv_step cfg w e h.inv
  obtain ⟨o, ho⟩ := h.exists_row
  obtain hs | ⟨i, now, call, err, rfl, hi, hs⟩ | ⟨i, now, call, todo, rfl, hi, hprep, hs⟩ |
    ⟨i, now, t, db, t', rfl, hi, halive, hout, hs⟩ | ⟨i, t, rfl, hi, hs⟩ := step_cases cfg w e h.inv
  · rw [hs]
    exact h
  · rw [hs] at hinv ⊢
    refine ⟨hinv, origin_setTask h.origin (fun t ht => by cases ht), ⟨o, ho⟩, ?_⟩
    refine rowSerial_same h.serial rfl (by rw [hi]; exact Iff.rfl) fun ha => ?_
    rw [hi] at ha
    exact ha.elim
  · rw [hs] at hinv ⊢
    refine ⟨hinv, origin_setTask h.origin ?_, ⟨o, ho⟩, rowSerial_start h.serial hi hprep ho⟩
    intro t ht
    cases ht
    exact .start hprep
  · rw [hs] at hinv ⊢
    have horigin := h.origin i t hi
    obtain ⟨hrow, hserial⟩ := rowSerial_outcome h.serial hi halive horigin hout ho hfresh
    refine ⟨hinv, origin_setTask h.origin ?_, hrow, hserial⟩
    intro t₁ ht
    cases ht
    exact horigin.outcome hout
  · rw [hs] at hinv ⊢
    refine ⟨hinv, origin_setTask h.origin ?_, ⟨o, ho⟩, ?_⟩
    · intro t₁ ht
      cases ht
      exact ⟨(h.origin i t hi).sentBy, (h.origin i t hi).pending⟩
    · refine rowSerial_same h.serial rfl (by rw [hi]; exact Iff.rfl) fun _ => ?_
      funext d
      simp only [effect, setTask_self, hi]

/-- Any number of calls, their statements in any order: if every save of the row is of a
current copy and every commit of the sweep of a row it would still select, then no write
undoes what another call has done meanwhile, and the row is always the one that the calls
accepted so far leave when they are carried out one at a time in some order. -/
theorem serial_of_fresh (cfg : Settings) (db : Db) (x : Nat)
    (hx : (db.accessRequests.find x).isSome) (events : List (Event n))
    (hfresh : Along (step cfg) (Fresh x) (initial n db) events) :
    Along (step cfg) (NothingLost cfg x) (initial n db) events ∧
      RowSerial cfg x db (run (step cfg) (initial n db) events) := by
  have hstart : SerialInv cfg x db (initial n db) := by
    refine ⟨inv_initial db, fun i t h => (by cases h), Option.isSome_iff_exists.mp hx, ?_⟩
    exact serial_none _ _ db fun i h => h
  constructor
  · exact along_of_along (serialInv_step cfg x db) (nothingLost_step cfg x db) hstart hfresh
  · exact (run_invariant (serialInv_step cfg x db) hstart hfresh).serial

/-! ## An extension and a revocation -/

/-- The revocation starts when the extension has been saved, and overtakes it. -/
theorem serial_overtaking :
    RowSerial utc 1 oneGrant (run (step utc) (initial 2 oneGrant)
      ([.start 0 5 extend, .advance 0 5, .start 1 6 revoke] ++ List.replicate 5 (.advance 1 6) ++
        List.replicate 4 (.advance 0 7))) :=
  (serial_of_fresh utc oneGrant 1 (by decide) _ (by decide +kernel)).2

/-- Both calls read the row before either saves it. -/
def crossed (i j : Fin n) : List (Event n) :=
  [.start i 5 extend, .start j 6 revoke] ++ List.replicate 5 (.advance j 6) ++
    List.replicate 5 (.advance i 7)

/-- The extension writes the status it has read over the revocation. -/
theorem revocation_overwritten :
    ¬ ∀ (n : Nat) (cfg : Settings) (db : Db) (x : Nat), (db.accessRequests.find x).isSome →
      ∀ events : List (Event n), (∀ i, Stopped ((run (step cfg) (initial n db) events).tasks i)) →
        RowSerial cfg x db (run (step cfg) (initial n db) events) := by
  intro h
  obtain ⟨order, hnodup, hmem, hrow⟩ := h 2 utc oneGrant 1 (by decide) (crossed 0 1) (by decide +kernel)
  have haccepted : ∀ i, Accepted 1 ((run (step utc) (initial 2 oneGrant) (crossed 0 1)).tasks i) := by
    decide +kernel
  have hperm : order.Perm [0, 1] := by
    refine (List.perm_ext_iff_of_nodup hnodup (by decide)).mpr fun i => ?_
    rw [hmem i]
    exact ⟨fun _ => by revert i; decide, fun _ => haccepted i⟩
  obtain ⟨i, j, rfl⟩ := List.length_eq_two.mp hperm.length_eq
  have hboth : ∀ i j : Fin 2, i ≠ j →
      (perform (effect utc (run (step utc) (initial 2 oneGrant) (crossed 0 1))) [i, j]
        oneGrant).accessRequests.find 1 ≠
      (run (step utc) (initial 2 oneGrant) (crossed 0 1)).db.accessRequests.find 1 := by
    decide +kernel
  exact hboth i j (by simpa using hnodup) hrow

end Keywarden.AccessSerial
