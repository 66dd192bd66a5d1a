import Keywarden.AccessSteps
import Keywarden.Transitions

/-!
# A call that nobody disturbs

The statements of a call, sent one after the other while no other call has a transaction
open, do to the database what the handler or the sweep does to it.
-/
namespace Keywarden.AccessAlone

open Rows Transitions Access AccessSteps
open AccessRun hiding World Event step

variable {n : Nat}

/-- No other call has a transaction open. -/
def Undisturbed (w : World n) (i : Fin n) : Prop := ∀ j, j ≠ i → (w.tasks j).openBlock = none

theorem Undisturbed.rowLocked {w : World n} {i : Fin n} (h : Undisturbed w i) (id : Nat) :
    ¬ w.rowLocked i id := by
  rintro ⟨j, hji, hlock⟩
  rw [h j hji] at hlock
  cases hlock

theorem Undisturbed.permLocked {w : World n} {i : Fin n} (h : Undisturbed w i)
    (p : UserObjectPermission) (granted : Bool) : ¬ w.permLocked i p granted := by
  rintro ⟨j, hji, hlock⟩
  rw [h j hji] at hlock
  cases hlock

theorem Undisturbed.setTask {w : World n} {i : Fin n} (h : Undisturbed w i) (task : Task) (db : Db) :
    Undisturbed (w.setTask i task db) i := by
  intro j hji
  rw [setTask_of_ne w task db hji]
  exact h j hji

theorem setTask_setTask (w : World n) (i : Fin n) (task task' : Task) (db db' : Db) :
    (w.setTask i task db).setTask i task' db' = w.setTask i task' db' := by
  simp only [World.setTask, Function.update_idem]

theorem syncServerViewPerm_eq (now : Instant) (r : AccessRequest) (db : Db) :
    syncServerViewPerm now r db =
      setPerm (hasValidAccess now r.requester r.server db) (viewPerm r) db := rfl

/-- The world in which the call has still to send `todo` and the database is `db`. -/
def going (w : World n) (i : Fin n) (call : Call) (start : Instant) (todo : List Stmt) (answer : Bool)
    (block : Option Block) (db : Db) : World n :=
  w.setTask i (.started ⟨call, start, todo, answer, block, false⟩) db

section Statements

variable (cfg : Settings) {w : World n} {i : Fin n} {call : Call} {start now : Instant}
  {todo todo' : List Stmt} {answer answer' : Bool} {block block' : Option Block} {db db' : Db}
  {r : AccessRequest} {l : List Stmt}

theorem step_going
    (h : exec (going w i call start todo answer block db) i now
      ⟨call, start, todo, answer, block, false⟩ todo =
        some (db', ⟨call, start, todo', answer', block', false⟩)) :
    step cfg (going w i call start todo answer block db) (.advance i now) =
      going w i call start todo' answer' block' db' := by
  have htask : (going w i call start todo answer block db).tasks i =
      .started ⟨call, start, todo, answer, block, false⟩ := setTask_self _ _ _ _
  simp only [step, htask, Bool.false_eq_true, if_false, h]
  exact setTask_setTask w i _ _ db db'

theorem undisturbed_going (hw : Undisturbed w i) :
    Undisturbed (going w i call start todo answer block db) i := hw.setTask _ db

theorem step_apply (hw : Undisturbed w i) :
    step cfg (going w i call start (.applyAccess r :: l) answer none db) (.advance i now) =
      going w i call start l answer none (setPerm answer (viewPerm r) db) := by
  apply step_going
  simp only [exec, Progress.view, (undisturbed_going hw).permLocked, if_false]
  split
  · next h =>
    have hsame : setPerm answer (viewPerm r) db = db := setPerm_of_iff h
    rw [hsame]
    rfl
  · rfl

/-- Inside a transaction the permission is set for the call itself alone. -/
theorem step_blockApply (hw : Undisturbed w i) :
    ∃ grant, step cfg (going w i call start (.applyAccess r :: l) answer (some ⟨r, none⟩) db)
        (.advance i now) = going w i call start l answer (some ⟨r, grant⟩) db ∧
      Block.apply start ⟨r, grant⟩ db =
        setPerm answer (viewPerm r) (Block.apply start ⟨r, none⟩ db) := by
  by_cases h : HoldsView (Block.apply start ⟨r, none⟩ db) r.requester r.server ↔ answer = true
  · refine ⟨none, step_going cfg ?_, (setPerm_of_iff h).symm⟩
    simp only [exec, Progress.view]
    exact if_pos h
  · refine ⟨some answer, step_going cfg ?_, rfl⟩
    simp only [exec, Progress.view, (undisturbed_going hw).permLocked, if_false]
    exact if_neg h

/-- The two halves of a synchronisation outside a transaction. -/
theorem run_sync (hw : Undisturbed w i) :
    run (step cfg) (going w i call start (syncStmts r ++ l) answer none db)
        (List.replicate 2 (.advance i now)) =
      going w i call start l (hasValidAccess now r.requester r.server db) none
        (syncServerViewPerm now r db) := by
  have hquery : step cfg (going w i call start (syncStmts r ++ l) answer none db) (.advance i now) =
      going w i call start (.applyAccess r :: l) (hasValidAccess now r.requester r.server db) none db :=
    step_going cfg rfl
  simp only [List.replicate, run_cons, run_nil, hquery, step_apply cfg hw, syncServerViewPerm_eq]

/-- One row of the sweep. -/
theorem run_expireStmts (hw : Undisturbed w i) :
    ∃ answer', run (step cfg) (going w i call now (expireStmts r ++ l) answer none db)
        (List.replicate 6 (.advance i now)) =
      going w i call now l answer' none (expireOne now db r) := by
  let rest := Stmt.commit :: (syncStmts r ++ l)
  let answer' := hasValidAccess now r.requester r.server (Block.apply now ⟨r, none⟩ db)
  have hmark : step cfg (going w i call now (expireStmts r ++ l) answer none db) (.advance i now) =
      going w i call now (syncStmts r ++ rest) answer (some ⟨r, none⟩) db := by
    apply step_going
    simp only [expireStmts, List.cons_append, List.append_assoc, exec,
      (undisturbed_going hw).rowLocked, if_false]
    rfl
  have hquery : step cfg (going w i call now (syncStmts r ++ rest) answer (some ⟨r, none⟩) db)
      (.advance i now) = going w i call now (.applyAccess r :: rest) answer' (some ⟨r, none⟩) db :=
    step_going cfg rfl
  obtain ⟨grant, happly, hblock⟩ : ∃ grant,
      step cfg (going w i call now (.applyAccess r :: rest) answer' (some ⟨r, none⟩) db)
        (.advance i now) = going w i call now rest answer' (some ⟨r, grant⟩) db ∧
      Block.apply now ⟨r, grant⟩ db =
        setPerm answer' (viewPerm r) (Block.apply now ⟨r, none⟩ db) := step_blockApply cfg hw
  have hcommit : step cfg (going w i call now rest answer' (some ⟨r, grant⟩) db) (.advance i now) =
      going w i call now (syncStmts r ++ l) answer' none (Block.apply now ⟨r, grant⟩ db) :=
    step_going cfg rfl
  have hsplit : List.replicate 6 (Event.advance i now) =
      .advance i now :: .advance i now :: .advance i now :: .advance i now ::
        List.replicate 2 (.advance i now) := rfl
  refine ⟨hasValidAccess now r.requester r.server (Block.apply now ⟨r, grant⟩ db), ?_⟩
  rw [hsplit, run_cons, run_cons, run_cons, run_cons, hmark, hquery, happly, hcommit,
    run_sync cfg hw, hblock]
  rfl

/-- The loop of the sweep. -/
theorem run_flatMap_expireStmts (hw : Undisturbed w i) (rows : List AccessRequest) :
    ∃ answer', run (step cfg) (going w i call now (rows.flatMap expireStmts) answer none db)
        (List.replicate (6 * rows.length) (.advance i now)) =
      going w i call now [] answer' none (rows.foldl (expireOne now) db) := by
  induction rows generalizing answer db with
  | nil => exact ⟨answer, rfl⟩
  | cons r rows ih =>
    obtain ⟨answer₁, hrow⟩ : ∃ answer₁,
        run (step cfg) (going w i call now (expireStmts r ++ rows.flatMap expireStmts) answer none db)
          (List.replicate 6 (.advance i now)) =
        going w i call now (rows.flatMap expireStmts) answer₁ none (expireOne now db r) :=
      run_expireStmts cfg hw
    obtain ⟨answer₂, hrest⟩ : ∃ answer₂,
        run (step cfg) (going w i call now (rows.flatMap expireStmts) answer₁ none
          (expireOne now db r)) (List.replicate (6 * rows.length) (.advance i now)) =
        going w i call now [] answer₂ none (rows.foldl (expireOne now) (expireOne now db r)) := ih
    refine ⟨answer₂, ?_⟩
    rw [List.length_cons, Nat.mul_succ, Nat.add_comm, List.replicate_add, run_append,
      List.flatMap_cons, hrow, hrest, List.foldl_cons]

/-- The last synchronisation of a call. -/
theorem run_sync_nil (hw : Undisturbed w i) :
    run (step cfg) (going w i call start (syncStmts r) answer none db)
        (List.replicate 2 (.advance i now)) =
      going w i call start [] (hasValidAccess now r.requester r.server db) none
        (syncServerViewPerm now r db) :=
  run_sync (l := []) cfg hw

/-- The statements of an update, after the save has been prepared. -/
theorem run_updateStmts (hw : Undisturbed w i) :
    ∃ answer', run (step cfg) (going w i call now (updateStmts r) answer none db)
        (List.replicate 5 (.advance i now)) =
      going w i call now [] answer' none (syncServerViewPerm now r (saveRequest now r db)) := by
  have hsave : step cfg (going w i call now (updateStmts r) answer none db) (.advance i now) =
      going w i call now (syncStmts r ++ syncStmts r) answer none
        { db with accessRequests := db.accessRequests.save r } := by
    apply step_going
    simp only [updateStmts, exec, (undisturbed_going hw).rowLocked, if_false]
    rfl
  have hsplit : List.replicate 5 (Event.advance i now) =
      .advance i now :: (List.replicate 2 (.advance i now) ++ List.replicate 2 (.advance i now)) := rfl
  refine ⟨hasValidAccess now r.requester r.server (saveRequest now r db), ?_⟩
  rw [hsplit, run_cons, run_append, hsave, run_sync cfg hw, run_sync_nil cfg hw]
  rfl

/-- The statements of a new request. -/
theorem run_insertRequest (hw : Undisturbed w i) (mk : Nat → AccessRequest)
    (hmk : (fun id => { r with id := id }) = mk) :
    ∃ answer', run (step cfg) (going w i call now [.insertRequest r] answer none db)
        (List.replicate 5 (.advance i now)) =
      going w i call now [] answer' none (assignAccessRequestPerms now (mk db.accessRequests.fresh) true
        { db with accessRequests := db.accessRequests.create mk }) := by
  subst hmk
  let r' : AccessRequest := { r with id := db.accessRequests.fresh }
  let created : Db :=
    { db with accessRequests := db.accessRequests.create fun id => { r with id := id } }
  let owned : Db := assignPerm ⟨r'.requester, .changeAccessrequest, r'.id⟩
    (assignPerm ⟨r'.requester, .viewAccessrequest, r'.id⟩ created)
  have hinsert : run (step cfg) (going w i call now [.insertRequest r] answer none db)
      (List.replicate 3 (.advance i now)) = going w i call now (syncStmts r') answer none owned := by
    have h₁ : step cfg (going w i call now [.insertRequest r] answer none db) (.advance i now) =
        going w i call now (createdStmts r') answer none created := step_going cfg rfl
    have h₂ : step cfg (going w i call now (createdStmts r') answer none created) (.advance i now) =
        going w i call now (.assignPerm ⟨r'.requester, .changeAccessrequest, r'.id⟩ :: syncStmts r') answer
          none (assignPerm ⟨r'.requester, .viewAccessrequest, r'.id⟩ created) := step_going cfg rfl
    have h₃ : step cfg (going w i call now
        (.assignPerm ⟨r'.requester, .changeAccessrequest, r'.id⟩ :: syncStmts r') answer none
        (assignPerm ⟨r'.requester, .viewAccessrequest, r'.id⟩ created)) (.advance i now) =
        going w i call now (syncStmts r') answer none owned := step_going cfg rfl
    simp only [List.replicate, run_cons, run_nil, h₁, h₂, h₃]
  have hsplit : List.replicate 5 (Event.advance i now) =
      List.replicate 3 (.advance i now) ++ List.replicate 2 (.advance i now) := rfl
  refine ⟨hasValidAccess now r'.requester r'.server owned, ?_⟩
  rw [hsplit, run_append, hinsert, run_sync_nil cfg hw]
  rfl

end Statements

/-- Started in `w`, the call stops by itself and leaves `db`. -/
def Leaves (cfg : Settings) (w : World n) (i : Fin n) (now : Instant) (call : Call) (db : Db) : Prop :=
  ∃ k, (run (step cfg) w (.start i now call :: List.replicate k (.advance i now))).db = db ∧
    Stopped ((run (step cfg) w (.start i now call :: List.replicate k (.advance i now))).tasks i)

section Start

variable {cfg : Settings} {w : World n} {i : Fin n} {now : Instant} {call : Call}

theorem leaves_of_error {e : HttpError} (hi : w.tasks i = .idle)
    (h : prepare cfg now w.db call = .error e) : Leaves cfg w i now call w.db := by
  have hstart : step cfg w (.start i now call) = w.setTask i (.rejected e) w.db := by
    simp only [step, hi, h]
  refine ⟨0, ?_⟩
  rw [List.replicate_zero, run_cons, run_nil, hstart, setTask_self]
  exact ⟨rfl, trivial⟩

theorem leaves_of_run {todo : List Stmt} {db : Db} (hi : w.tasks i = .idle)
    (h : prepare cfg now w.db call = .ok todo) (k : Nat)
    (hrun : ∃ answer, run (step cfg) (going w i call now todo false none w.db)
      (List.replicate k (.advance i now)) = going w i call now [] answer none db) :
    Leaves cfg w i now call db := by
  have hstart : step cfg w (.start i now call) = going w i call now todo false none w.db := by
    simp only [step, hi, h]
    rfl
  obtain ⟨answer, hrun⟩ := hrun
  refine ⟨k, ?_⟩
  rw [run_cons, hstart, hrun, going, setTask_self]
  exact ⟨rfl, .inr rfl⟩

end Start

theorem createRequest_leaves (cfg : Settings) {w : World n} {i : Fin n} {now : Instant}
    {caller : Caller} {payload : AccessRequestCreateIn} (hw : Undisturbed w i)
    (hi : w.tasks i = .idle) :
    Leaves cfg w i now (.createRequest caller payload)
      (apply cfg now w.db (.createRequest caller payload)) := by
  simp only [apply, createRequest]
  by_cases hauth : caller.isAuthenticated = true
  · by_cases hperm : caller.hasPerm .addAccessrequest = true
    · cases hserver : w.db.servers.find payload.serverId with
      | none =>
        simp only [hauth, hperm, Bool.not_true, Bool.false_eq_true, if_false]
        exact leaves_of_error hi (by simp [prepare, hauth, hperm, hserver]; rfl)
      | some server =>
        simp only [hauth, hperm, Bool.not_true, Bool.false_eq_true, if_false]
        have hprep : prepare cfg now w.db (.createRequest caller payload) =
            .ok [.insertRequest (newRequest cfg caller now payload server.id 0)] := by
          simp [prepare, hauth, hperm, hserver]
        exact leaves_of_run hi hprep 5 (run_insertRequest cfg hw _ rfl)
    · simp only [hauth, hperm, Bool.not_true, Bool.not_false, Bool.false_eq_true, if_false, if_true]
      exact leaves_of_error hi (by simp [prepare, hauth, hperm]; rfl)
  · simp only [hauth, Bool.not_false, if_true]
    exact leaves_of_error hi (by simp [prepare, hauth]; rfl)

theorem updateRequest_leaves (cfg : Settings) {w : World n} {i : Fin n} {now : Instant}
    {caller : Caller} {requestId : Nat} {payload : AccessRequestUpdateIn} (hw : Undisturbed w i)
    (hi : w.tasks i = .idle) :
    Leaves cfg w i now (.updateRequest caller requestId payload)
      (apply cfg now w.db (.updateRequest caller requestId payload)) := by
  simp only [apply, updateRequest]
  by_cases hauth : caller.isAuthenticated = true
  · cases hrow : w.db.accessRequests.find requestId with
    | none =>
      simp only [hauth, Bool.not_true, Bool.false_eq_true, if_false]
      exact leaves_of_error hi (by simp [prepare, hauth, hrow]; rfl)
    | some row =>
      cases ha : applyUpdate cfg caller now payload row with
      | error e =>
        simp only [hauth, ha, Bool.not_true, Bool.false_eq_true, if_false]
        exact leaves_of_error hi (by simp [prepare, hauth, hrow, ha, Except.map]; rfl)
      | ok r =>
        simp only [hauth, ha, Bool.not_true, Bool.false_eq_true, if_false]
        have hprep : prepare cfg now w.db (.updateRequest caller requestId payload) =
            .ok (updateStmts r) := by
          simp [prepare, hauth, hrow, ha, Except.map]
        exact leaves_of_run hi hprep 5 (run_updateStmts cfg hw)
  · simp only [hauth, Bool.not_false, if_true]
    exact leaves_of_error hi (by simp [prepare, hauth]; rfl)

/-- Undisturbed, a call that is started and sends all its statements does what it does at
one go. -/
theorem leaves_apply (cfg : Settings) (w : World n) (i : Fin n) (now : Instant) (call : Call)
    (hw : Undisturbed w i) (hi : w.tasks i = .idle) :
    Leaves cfg w i now call (apply cfg now w.db call.op) := by
  cases call with
  | createRequest caller payload => exact createRequest_leaves cfg hw hi
  | updateRequest caller requestId payload => exact updateRequest_leaves cfg hw hi
  | expireAccessRequests => exact leaves_of_run hi rfl _ (run_flatMap_expireStmts cfg hw _)

end Keywarden.AccessAlone
