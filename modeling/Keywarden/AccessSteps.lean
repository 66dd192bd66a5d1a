import Keywarden.AccessRun

/-!
# Access requests one statement at a time

The handlers that create and update access requests and the sweep that expires them,
taken apart into the statements they send to the database. Statements of different
calls may come in any order, and a call may be aborted after any of them. Only the
sweep opens a transaction, one for each row: until its commit the others see neither the
row it has updated nor the permission it has set, and a statement that would touch either
waits for it (READ COMMITTED).
-/
namespace Keywarden.AccessSteps

open Rows Access AccessRun

inductive Call where
  | createRequest (caller : Caller) (payload : AccessRequestCreateIn)
  | updateRequest (caller : Caller) (requestId : Nat) (payload : AccessRequestUpdateIn)
  | expireAccessRequests

/-- The call carried out at one go. -/
def Call.op : Call → Op
  | .createRequest caller payload => .createRequest caller payload
  | .updateRequest caller requestId payload => .updateRequest caller requestId payload
  | .expireAccessRequests => .expireAccessRequests

inductive Stmt where
  /-- `INSERT`; the row gets its key from the database. -/
  | insertRequest (r : AccessRequest)
  | assignPerm (p : UserObjectPermission)
  /-- `save()`: every column of the row. -/
  | saveRequest (r : AccessRequest)
  /-- The start of a transaction and `save(update_fields=…)` in it. -/
  | expireRequest (r : AccessRequest)
  /-- The two halves of `sync_server_view_perm`. -/
  | queryAccess (r : AccessRequest)
  | applyAccess (r : AccessRequest)
  | commit

def pair (r : AccessRequest) : UserId × ServerId := (r.requester, r.server)

def syncStmts (r : AccessRequest) : List Stmt := [.queryAccess r, .applyAccess r]

/-- The receiver of `post_save` for a new row. -/
def createdStmts (r : AccessRequest) : List Stmt :=
  .assignPerm ⟨r.requester, .viewAccessrequest, r.id⟩ ::
    .assignPerm ⟨r.requester, .changeAccessrequest, r.id⟩ :: syncStmts r

/-- The save, the receiver of its signal, and the call of the handler itself. -/
def updateStmts (r : AccessRequest) : List Stmt := .saveRequest r :: (syncStmts r ++ syncStmts r)

/-- One row of the sweep; the receiver runs inside the transaction. -/
def expireStmts (r : AccessRequest) : List Stmt :=
  .expireRequest r :: (syncStmts r ++ .commit :: syncStmts r)

/-- A handler up to its first write: it fails, or knows what it is going to send. -/
def prepare (cfg : Settings) (now : Instant) (db : Db) : Call → Except HttpError (List Stmt)
  | .createRequest caller payload =>
    if !caller.isAuthenticated then .error forbidden
    else if !caller.hasPerm .addAccessrequest then .error forbidden
    else match db.servers.find payload.serverId with
      | none => .error ⟨404, none, "Server not found"⟩
      | some server => .ok [.insertRequest (newRequest cfg caller now payload server.id 0)]
  | .updateRequest caller requestId payload =>
    if !caller.isAuthenticated then .error forbidden
    else match db.accessRequests.find requestId with
      | none => .error notFound
      | some row => (applyUpdate cfg caller now payload row).map updateStmts
  | .expireAccessRequests => .ok ((expiring now db).flatMap expireStmts)

/-- An open transaction: the row it has updated, and the permission of the row's pair
that it has inserted (`true`) or deleted. -/
structure Block where
  row : AccessRequest
  grant : Option Bool

def setPerm (granted : Bool) (p : UserObjectPermission) (db : Db) : Db :=
  if granted then assignPerm p db else removePerm p db

def Block.apply (now : Instant) (b : Block) (db : Db) : Db :=
  let db := { db with
    accessRequests := db.accessRequests.update (fun o => o.id = b.row.id) (markExpired now) }
  match b.grant with
  | none => db
  | some granted => setPerm granted (viewPerm b.row) db

/-- A call under way: its clock at the start, what it has still to send, the answer to
its last query. -/
structure Progress where
  call : Call
  now : Instant
  todo : List Stmt
  answer : Bool
  block : Option Block
  aborted : Bool

inductive Task where
  | idle
  | rejected (e : HttpError)
  | started (t : Progress)

/-- What the call sees of the database. -/
def Progress.view (t : Progress) (db : Db) : Db :=
  match t.block with
  | none => db
  | some b => b.apply t.now db

/-- An aborted transaction is rolled back. -/
def Task.openBlock : Task → Option Block
  | .started t => if t.aborted then none else t.block
  | _ => none

variable {n : Nat}

structure World (n : Nat) where
  db : Db
  tasks : Fin n → Task

def World.rowLocked (w : World n) (i : Fin n) (id : Nat) : Prop :=
  ∃ j, j ≠ i ∧ (w.tasks j).openBlock.any (fun b => b.row.id = id) = true

/-- Somebody else has inserted the permission, or deleted it, and not committed. -/
def World.permLocked (w : World n) (i : Fin n) (p : UserObjectPermission) (granted : Bool) : Prop :=
  ∃ j, j ≠ i ∧
    (w.tasks j).openBlock.any (fun b => viewPerm b.row = p && b.grant = some granted) = true

instance (w : World n) (i : Fin n) (id : Nat) : Decidable (w.rowLocked i id) :=
  inferInstanceAs (Decidable (∃ _, _ ∧ _))
instance (w : World n) (i : Fin n) (p : UserObjectPermission) (granted : Bool) :
    Decidable (w.permLocked i p granted) := inferInstanceAs (Decidable (∃ _, _ ∧ _))

/-- The next statement of a call, unless it has to wait. `assign_perm` inserts nothing
when it sees the permission, `remove_perm` deletes nothing when it sees none. -/
def exec (w : World n) (i : Fin n) (now : Instant) (t : Progress) : List Stmt → Option (Db × Progress)
  | [] => none
  | .insertRequest r :: _ =>
    some ({ w.db with accessRequests := w.db.accessRequests.create fun id => { r with id := id } },
      { t with todo := createdStmts { r with id := w.db.accessRequests.fresh } })
  | .assignPerm p :: rest => some (assignPerm p w.db, { t with todo := rest })
  | .saveRequest r :: rest =>
    if w.rowLocked i r.id then none
    else some ({ w.db with accessRequests := w.db.accessRequests.save r }, { t with todo := rest })
  | .expireRequest r :: rest =>
    if w.rowLocked i r.id then none
    else some (w.db, { t with block := some ⟨r, none⟩, todo := rest })
  | .queryAccess r :: rest =>
    some (w.db, { t with
      answer := hasValidAccess now r.requester r.server (t.view w.db)
      todo := rest })
  | .applyAccess r :: rest =>
    if HoldsView (t.view w.db) r.requester r.server ↔ t.answer = true then
      some (w.db, { t with todo := rest })
    else if w.permLocked i (viewPerm r) t.answer then none
    else match t.block with
      | none => some (setPerm t.answer (viewPerm r) w.db, { t with todo := rest })
      | some b => some (w.db, { t with block := some { b with grant := some t.answer }, todo := rest })
  | .commit :: rest => some (t.view w.db, { t with block := none, todo := rest })

inductive Event (n : Nat) where
  | start (i : Fin n) (now : Instant) (call : Call)
  | advance (i : Fin n) (now : Instant)
  | abort (i : Fin n)

def World.setTask (w : World n) (i : Fin n) (task : Task) (db : Db) : World n :=
  ⟨db, Function.update w.tasks i task⟩

/-- Every task carries out one call. -/
def step (cfg : Settings) (w : World n) : Event n → World n
  | .start i now call =>
    match w.tasks i with
    | .idle =>
      match prepare cfg now w.db call with
      | .error e => w.setTask i (.rejected e) w.db
      | .ok todo => w.setTask i (.started ⟨call, now, todo, false, none, false⟩) w.db
    | _ => w
  | .advance i now =>
    match w.tasks i with
    | .started t =>
      if t.aborted then w
      else match exec w i now t t.todo with
        | none => w
        | some (db, t) => w.setTask i (.started t) db
    | _ => w
  | .abort i =>
    match w.tasks i with
    | .started t => w.setTask i (.started { t with aborted := true }) w.db
    | _ => w

def initial (n : Nat) (db : Db) : World n := ⟨db, fun _ => .idle⟩

/-- The call sends nothing more. -/
def Stopped : Task → Prop
  | .idle | .rejected _ => True
  | .started t => t.aborted = true ∨ t.todo = []

instance : (task : Task) → Decidable (Stopped task)
  | .idle | .rejected _ => isTrue trivial
  | .started t => inferInstanceAs (Decidable (t.aborted = true ∨ t.todo = []))

/-! ## What one statement does -/

@[simp] theorem setPerm_accessRequests (granted : Bool) (p : UserObjectPermission) (db : Db) :
    (setPerm granted p db).accessRequests = db.accessRequests := by
  cases granted <;> rfl

/-- Setting what is set already. -/
theorem setPerm_of_iff {granted : Bool} {r : AccessRequest} {db : Db}
    (h : HoldsView db r.requester r.server ↔ granted = true) : setPerm granted (viewPerm r) db = db := by
  cases granted with
  | true =>
    have hmem : viewPerm r ∈ db.userObjectPermissions := h.mpr rfl
    simp only [setPerm, if_true, assignPerm, Finset.insert_eq_self.mpr hmem]
  | false =>
    have hmem : viewPerm r ∉ db.userObjectPermissions := fun hm => Bool.noConfusion (h.mp hm)
    simp only [setPerm, Bool.false_eq_true, if_false, removePerm, Finset.erase_eq_of_notMem hmem]

@[simp] theorem Block.apply_accessRequests (now : Instant) (b : Block) (db : Db) :
    (b.apply now db).accessRequests =
      db.accessRequests.update (fun o => o.id = b.row.id) (markExpired now) := by
  unfold Block.apply
  cases b.grant <;> simp

/-- Where a call can be: what it has still to send, by what it is about to send. -/
inductive Plan : Option Block → List Stmt → Prop
  | done : Plan none []
  | insert (r : AccessRequest) : Plan none [.insertRequest r]
  | assign {p : UserObjectPermission} {l : List Stmt} (hp : p.permission ≠ .viewServer)
      (hl : Plan none l) : Plan none (.assignPerm p :: l)
  | save (r : AccessRequest) : Plan none (updateStmts r)
  | query (r : AccessRequest) {l : List Stmt} (hl : Plan none l) : Plan none (syncStmts r ++ l)
  | apply (r : AccessRequest) {l : List Stmt} (hl : Plan none l) : Plan none (.applyAccess r :: l)
  | expire (r : AccessRequest) {l : List Stmt} (hl : Plan none l) : Plan none (expireStmts r ++ l)
  | blockQuery (b : Block) {l : List Stmt} (hl : Plan none l) :
      Plan (some b) (syncStmts b.row ++ .commit :: (syncStmts b.row ++ l))
  | blockApply (b : Block) {l : List Stmt} (hl : Plan none l) :
      Plan (some b) (.applyAccess b.row :: .commit :: (syncStmts b.row ++ l))
  | commit (b : Block) {l : List Stmt} (hl : Plan none l) :
      Plan (some b) (.commit :: (syncStmts b.row ++ l))

theorem plan_created {r : AccessRequest} : Plan none (createdStmts r) :=
  .assign (by simp) (.assign (by simp) (.query r .done))

theorem plan_updated (r : AccessRequest) : Plan none (syncStmts r ++ syncStmts r) :=
  .query r (.query r .done)

theorem plan_flatMap_expireStmts (rows : List AccessRequest) :
    Plan none (rows.flatMap expireStmts) := by
  induction rows with
  | nil => exact .done
  | cons r rows ih => exact .expire r ih

/-- What a call that is accepted is going to send. -/
theorem prepare_cases {cfg : Settings} {now : Instant} {db : Db} {call : Call} {todo : List Stmt}
    (h : prepare cfg now db call = .ok todo) :
    (∃ caller payload r, call = .createRequest caller payload ∧ todo = [.insertRequest r]) ∨
    (∃ caller requestId payload row r, call = .updateRequest caller requestId payload ∧
      caller.isAuthenticated = true ∧ db.accessRequests.find requestId = some row ∧
      applyUpdate cfg caller now payload row = .ok r ∧ todo = updateStmts r) ∨
    (call = .expireAccessRequests ∧ todo = (expiring now db).flatMap expireStmts) := by
  cases call with
  | createRequest caller payload =>
    simp only [prepare] at h
    split at h
    · cases h
    · split at h
      · cases h
      · split at h
        · cases h
        · cases h
          exact .inl ⟨caller, payload, _, rfl, rfl⟩
  | updateRequest caller requestId payload =>
    simp only [prepare] at h
    split at h
    · cases h
    · next hauth =>
      split at h
      · cases h
      · next row hrow =>
        cases ha : applyUpdate cfg caller now payload row with
        | error e =>
          rw [ha] at h
          cases h
        | ok r =>
          rw [ha] at h
          cases h
          exact .inr (.inl ⟨caller, requestId, payload, row, r, rfl, by simpa using hauth, hrow, ha, rfl⟩)
  | expireAccessRequests =>
    cases h
    exact .inr (.inr ⟨rfl, rfl⟩)

theorem prepare_plan {cfg : Settings} {now : Instant} {db : Db} {call : Call} {todo : List Stmt}
    (h : prepare cfg now db call = .ok todo) : Plan none todo := by
  obtain ⟨_, _, r, _, rfl⟩ | ⟨_, _, _, _, r, _, _, _, _, rfl⟩ | ⟨_, rfl⟩ := prepare_cases h
  · exact .insert r
  · exact .save r
  · exact plan_flatMap_expireStmts _

/-- What a statement leaves: the database and the call that has sent it. -/
inductive Outcome (w : World n) (i : Fin n) (now : Instant) (t : Progress) : Db → Progress → Prop
  | insert (r : AccessRequest) (hb : t.block = none) (ht : t.todo = [.insertRequest r]) :
      Outcome w i now t
        { w.db with accessRequests := w.db.accessRequests.create fun id => { r with id := id } }
        { t with todo := createdStmts { r with id := w.db.accessRequests.fresh } }
  | assign {p : UserObjectPermission} {l : List Stmt} (hp : p.permission ≠ .viewServer)
      (hl : Plan none l) (hb : t.block = none) (ht : t.todo = .assignPerm p :: l) :
      Outcome w i now t (assignPerm p w.db) { t with todo := l }
  | save (r : AccessRequest) (hb : t.block = none) (ht : t.todo = updateStmts r)
      (hfree : ¬ w.rowLocked i r.id) :
      Outcome w i now t { w.db with accessRequests := w.db.accessRequests.save r }
        { t with todo := syncStmts r ++ syncStmts r }
  | query (r : AccessRequest) {l : List Stmt} (hl : Plan none l) (hb : t.block = none)
      (ht : t.todo = syncStmts r ++ l) :
      Outcome w i now t w.db { t with
        answer := hasValidAccess now r.requester r.server w.db
        todo := .applyAccess r :: l }
  | apply (r : AccessRequest) {l : List Stmt} (hl : Plan none l) (hb : t.block = none)
      (ht : t.todo = .applyAccess r :: l) :
      Outcome w i now t (setPerm t.answer (viewPerm r) w.db) { t with todo := l }
  | expire (r : AccessRequest) {l : List Stmt} (hl : Plan none l) (hb : t.block = none)
      (ht : t.todo = expireStmts r ++ l) (hfree : ¬ w.rowLocked i r.id) :
      Outcome w i now t w.db { t with
        block := some ⟨r, none⟩
        todo := syncStmts r ++ .commit :: (syncStmts r ++ l) }
  | blockQuery (b : Block) {l : List Stmt} (hl : Plan none l) (hb : t.block = some b)
      (ht : t.todo = syncStmts b.row ++ .commit :: (syncStmts b.row ++ l)) :
      Outcome w i now t w.db { t with
        answer := hasValidAccess now b.row.requester b.row.server (b.apply t.now w.db)
        todo := .applyAccess b.row :: .commit :: (syncStmts b.row ++ l) }
  | blockApply (b : Block) (grant : Option Bool) {l : List Stmt} (hl : Plan none l)
      (hb : t.block = some b) (ht : t.todo = .applyAccess b.row :: .commit :: (syncStmts b.row ++ l)) :
      Outcome w i now t w.db { t with
        block := some { b with grant := grant }
        todo := .commit :: (syncStmts b.row ++ l) }
  | commit (b : Block) {l : List Stmt} (hl : Plan none l) (hb : t.block = some b)
      (ht : t.todo = .commit :: (syncStmts b.row ++ l)) :
      Outcome w i now t (b.apply t.now w.db) { t with block := none, todo := syncStmts b.row ++ l }

theorem exec_outcome {w : World n} {i : Fin n} {now : Instant} {t t' : Progress} {db : Db}
    (hplan : Plan t.block t.todo) (h : exec w i now t t.todo = some (db, t')) :
    Outcome w i now t db t' := by
  obtain ⟨call, start, todo, answer, block, aborted⟩ := t
  cases hplan with
  | done => cases h
  | insert r =>
    cases h
    exact .insert r rfl rfl
  | assign hp hl =>
    cases h
    exact .assign hp hl rfl rfl
  | save r =>
    simp only [exec] at h
    split at h
    · cases h
    · next hfree =>
      cases h
      exact .save r rfl rfl hfree
  | query r hl =>
    cases h
    exact .query r hl rfl rfl
  | apply r hl =>
    simp only [exec, Progress.view] at h
    split at h
    · next hiff =>
      cases h
      have hsame : setPerm answer (viewPerm r) w.db = w.db := setPerm_of_iff hiff
      rw [← hsame]
      exact .apply r hl rfl rfl
    · split at h
      · cases h
      · cases h
        exact .apply r hl rfl rfl
  | expire r hl =>
    simp only [exec] at h
    split at h
    · cases h
    · next hfree =>
      cases h
      exact .expire r hl rfl rfl hfree
  | blockQuery b hl =>
    cases h
    exact .blockQuery b hl rfl rfl
  | blockApply b hl =>
    simp only [exec, Progress.view] at h
    split at h
    · cases h
      exact .blockApply b b.grant hl rfl rfl
    · split at h
      · cases h
      · cases h
        exact .blockApply b (some answer) hl rfl rfl
  | commit b hl =>
    cases h
    exact .commit b hl rfl rfl

section Outcome

variable {w : World n} {i : Fin n} {now : Instant} {t t' : Progress} {db : Db}

theorem Outcome.plan (h : Outcome w i now t db t') : Plan t'.block t'.todo := by
  cases h with
  | insert r hb => rw [hb]; exact plan_created
  | assign _ hl hb => rw [hb]; exact hl
  | save r hb => rw [hb]; exact plan_updated r
  | query r hl hb => rw [hb]; exact .apply r hl
  | apply r hl hb => rw [hb]; exact hl
  | expire r hl => exact .blockQuery ⟨r, none⟩ hl
  | blockQuery b hl hb => rw [hb]; exact .blockApply b hl
  | blockApply b grant hl => exact .commit { b with grant := grant } hl
  | commit b hl => exact .query b.row hl

/-- Statements are sent in order; only an insert adds to them. -/
theorem Outcome.todo_cases (h : Outcome w i now t db t') :
    (∃ s, t.todo = s :: t'.todo) ∨ ∃ r r', t.todo = [.insertRequest r] ∧ t'.todo = createdStmts r' := by
  cases h with
  | insert r hb ht => exact .inr ⟨r, _, ht, rfl⟩
  | assign hp hl hb ht => exact .inl ⟨_, ht⟩
  | save r hb ht => exact .inl ⟨_, ht⟩
  | query r hl hb ht => exact .inl ⟨_, ht⟩
  | apply r hl hb ht => exact .inl ⟨_, ht⟩
  | expire r hl hb ht => exact .inl ⟨_, ht⟩
  | blockQuery b hl hb ht => exact .inl ⟨_, ht⟩
  | blockApply b grant hl hb ht => exact .inl ⟨_, ht⟩
  | commit b hl hb ht => exact .inl ⟨_, ht⟩

theorem Outcome.call_eq (h : Outcome w i now t db t') : t'.call = t.call := by
  cases h <;> rfl

theorem Outcome.now_eq (h : Outcome w i now t db t') : t'.now = t.now := by
  cases h <;> rfl

theorem Outcome.aborted_eq (h : Outcome w i now t db t') : t'.aborted = t.aborted := by
  cases h <;> rfl

end Outcome

/-! ## Rows still to be written -/

def Stmt.target : Stmt → Option AccessRequest
  | .saveRequest r | .expireRequest r => some r
  | _ => none

/-- The rows whose writes have not been committed. -/
def Progress.pending (t : Progress) : List AccessRequest :=
  (t.block.map Block.row).toList ++ t.todo.filterMap Stmt.target

/-- A sweep writes every row it has selected. -/
theorem filterMap_target_flatMap (rows : List AccessRequest) :
    (rows.flatMap expireStmts).filterMap Stmt.target = rows := by
  induction rows with
  | nil => rfl
  | cons r rows ih =>
    have hone : (expireStmts r).filterMap Stmt.target = [r] := rfl
    rw [List.flatMap_cons, List.filterMap_append, ih, hone]
    rfl

/-- A statement leaves the rows to be written as they are, or it is the save or the
commit that writes the first of them. -/
theorem Outcome.pending_cases {w : World n} {i : Fin n} {now : Instant} {t t' : Progress} {db : Db}
    (h : Outcome w i now t db t') :
    (t'.pending = t.pending ∧
      ((∃ r, t.todo = [.insertRequest r] ∧
        db.accessRequests = w.db.accessRequests.create fun id => { r with id := id }) ∨
        db.accessRequests = w.db.accessRequests)) ∨
    (∃ r, ¬ w.rowLocked i r.id ∧ t.todo = updateStmts r ∧ t.pending = r :: t'.pending ∧
      db.accessRequests = w.db.accessRequests.save r) ∨
    ∃ b, t.block = some b ∧ (∃ rest, t.todo = .commit :: rest) ∧ t.pending = b.row :: t'.pending ∧
      db.accessRequests =
        w.db.accessRequests.update (fun o => o.id = b.row.id) (markExpired t.now) := by
  cases h with
  | insert r hb ht =>
    refine .inl ⟨?_, .inl ⟨r, ht, rfl⟩⟩
    simp only [Progress.pending, hb, ht]
    rfl
  | assign _ _ hb ht =>
    refine .inl ⟨?_, .inr rfl⟩
    simp only [Progress.pending, ht]
    rfl
  | save r hb ht hfree =>
    refine .inr (.inl ⟨r, hfree, ht, ?_, rfl⟩)
    simp only [Progress.pending, hb, ht]
    rfl
  | query r _ hb ht =>
    refine .inl ⟨?_, .inr rfl⟩
    simp only [Progress.pending, ht]
    rfl
  | apply r _ hb ht =>
    refine .inl ⟨?_, .inr (setPerm_accessRequests _ _ _)⟩
    simp only [Progress.pending, ht]
    rfl
  | expire r _ hb ht =>
    refine .inl ⟨?_, .inr rfl⟩
    simp only [Progress.pending, hb, ht]
    rfl
  | blockQuery b _ hb ht =>
    refine .inl ⟨?_, .inr rfl⟩
    simp only [Progress.pending, ht]
    rfl
  | blockApply b grant _ hb ht =>
    refine .inl ⟨?_, .inr rfl⟩
    simp only [Progress.pending, hb, ht]
    rfl
  | commit b _ hb ht =>
    refine .inr (.inr ⟨b, hb, ⟨_, ht⟩, ?_, Block.apply_accessRequests t.now b w.db⟩)
    simp only [Progress.pending, hb, ht]
    rfl

/-- The row is stored, under the pair it has here. -/
def Known (db : Db) (r : AccessRequest) : Prop :=
  ∃ o ∈ db.accessRequests, o.id = r.id ∧ pair o = pair r

/-- No row is lost, and none changes its pair. -/
def Keeps (db db' : Db) : Prop := ∀ o ∈ db.accessRequests, Known db' o

theorem Known.mono {db db' : Db} {r : AccessRequest} (h : Known db r) (hk : Keeps db db') :
    Known db' r := by
  obtain ⟨o, ho, hid, hpair⟩ := h
  obtain ⟨o', ho', hid', hpair'⟩ := hk o ho
  exact ⟨o', ho', hid'.trans hid, hpair'.trans hpair⟩

theorem keeps_of_eq {db db' : Db} (h : db'.accessRequests = db.accessRequests) : Keeps db db' :=
  fun o ho => ⟨o, h ▸ ho, rfl, rfl⟩

/-- The pair a row is known under is its pair. -/
theorem Known.pair_eq {db : Db} {r o : AccessRequest} (h : Known db r) (ho : o ∈ db.accessRequests)
    (hid : o.id = r.id) : pair o = pair r := by
  obtain ⟨o', ho', hid', hpair⟩ := h
  rw [Table.eq_of_key _ ho ho' (hid.trans hid'.symm)]
  exact hpair

theorem Outcome.keeps {w : World n} {i : Fin n} {now : Instant} {t t' : Progress} {db : Db}
    (h : Outcome w i now t db t') (hk : ∀ r ∈ t.pending, Known w.db r) : Keeps w.db db := by
  obtain ⟨_, ⟨r, _, hrows⟩ | hrows⟩ | ⟨r, _, _, hp, hrows⟩ | ⟨b, _, _, _, hrows⟩ := h.pending_cases
  · intro o ho
    refine ⟨o, ?_, rfl, rfl⟩
    rw [hrows, Table.mem_create _ _ fun _ => rfl]
    exact .inl ho
  · exact keeps_of_eq hrows
  · have hr : Known w.db r := hk r (by rw [hp]; exact List.mem_cons_self)
    intro o ho
    rw [Known, hrows]
    by_cases hid : o.id = r.id
    · exact ⟨r, (Table.mem_save _ _ _).mpr (.inl ⟨rfl, o, ho, hid⟩), hid.symm, (hr.pair_eq ho hid).symm⟩
    · exact ⟨o, (Table.mem_save _ _ _).mpr (.inr ⟨ho, hid⟩), rfl, rfl⟩
  · intro o ho
    rw [Known, hrows]
    refine ⟨_, (Table.mem_update _ _ _ _).mpr ⟨o, ho, rfl⟩, ?_⟩
    by_cases hid : o.id = b.row.id <;> simp [hid, markExpired, pair]

theorem prepare_known {cfg : Settings} {now : Instant} {db : Db} {call : Call} {todo : List Stmt}
    (h : prepare cfg now db call = .ok todo) : ∀ r ∈ todo.filterMap Stmt.target, Known db r := by
  obtain ⟨_, _, _, _, rfl⟩ | ⟨_, _, _, row, r, _, _, hrow, ha, rfl⟩ | ⟨_, rfl⟩ := prepare_cases h
  · exact fun r hr => absurd hr List.not_mem_nil
  · intro r' hr'
    obtain ⟨hid, hreq, hserv⟩ := applyUpdate_frame ha
    rw [List.mem_singleton.mp (hr' : r' ∈ [r])]
    exact ⟨row, ((Table.find_eq_some _ _ _).mp hrow).1, hid.symm, by rw [pair, pair, hreq, hserv]⟩
  · intro r hr
    rw [filterMap_target_flatMap] at hr
    exact ⟨r, ((mem_expiring now db r).mp hr).1, rfl, rfl⟩

/-! ## What every step keeps -/

structure Inv (w : World n) : Prop where
  plan : ∀ i t, w.tasks i = .started t → Plan t.block t.todo
  known : ∀ i t, w.tasks i = .started t → ∀ r ∈ t.pending, Known w.db r

theorem inv_initial (db : Db) : Inv (initial n db) where
  plan i t h := by cases h
  known i t h := by cases h

/-- A step leaves the world as it is, or changes one task: it rejects its call or
accepts it, sends a statement of it, or aborts it. -/
theorem step_cases (cfg : Settings) (w : World n) (e : Event n) (hI : Inv w) :
    step cfg w e = w ∨
    (∃ i now call err, e = .start i now call ∧ w.tasks i = .idle ∧
      step cfg w e = w.setTask i (.rejected err) w.db) ∨
    (∃ i now call todo, e = .start i now call ∧ w.tasks i = .idle ∧
      prepare cfg now w.db call = .ok todo ∧
      step cfg w e = w.setTask i (.started ⟨call, now, todo, false, none, false⟩) w.db) ∨
    (∃ i now t db t', e = .advance i now ∧ w.tasks i = .started t ∧ t.aborted = false ∧
      Outcome w i now t db t' ∧ step cfg w e = w.setTask i (.started t') db) ∨
    ∃ i t, e = .abort i ∧ w.tasks i = .started t ∧
      step cfg w e = w.setTask i (.started { t with aborted := true }) w.db := by
  cases e with
  | start i now call =>
    simp only [step]
    split
    · next hidle =>
      split
      · next err _ => exact .inr (.inl ⟨i, now, call, err, rfl, hidle, rfl⟩)
      · next todo hprep => exact .inr (.inr (.inl ⟨i, now, call, todo, rfl, hidle, hprep, rfl⟩))
    · exact .inl rfl
  | advance i now =>
    simp only [step]
    split
    · next t ht =>
      split
      · exact .inl rfl
      · next halive =>
        split
        · exact .inl rfl
        · next db t' hexec =>
          exact .inr (.inr (.inr (.inl ⟨i, now, t, db, t', rfl, ht, by simpa using halive,
            exec_outcome (hI.plan i t ht) hexec, rfl⟩)))
    · exact .inl rfl
  | abort i =>
    simp only [step]
    split
    · next t ht => exact .inr (.inr (.inr (.inr ⟨i, t, rfl, ht, rfl⟩)))
    · exact .inl rfl

theorem setTask_of_ne (w : World n) {i j : Fin n} (task : Task) (db : Db) (h : j ≠ i) :
    (w.setTask i task db).tasks j = w.tasks j := Function.update_of_ne h _ _

@[simp] theorem setTask_self (w : World n) (i : Fin n) (task : Task) (db : Db) :
    (w.setTask i task db).tasks i = task := Function.update_self _ _ _

@[simp] theorem setTask_db (w : World n) (i : Fin n) (task : Task) (db : Db) :
    (w.setTask i task db).db = db := rfl

theorem inv_setTask {w : World n} {i : Fin n} {task : Task} {db : Db} (hI : Inv w)
    (hk : Keeps w.db db) (hplan : ∀ t, task = .started t → Plan t.block t.todo)
    (hknown : ∀ t, task = .started t → ∀ r ∈ t.pending, Known w.db r) :
    Inv (w.setTask i task db) where
  plan j t h := by
    by_cases hji : j = i
    · rw [hji, setTask_self] at h
      exact hplan t h
    · rw [setTask_of_ne w task db hji] at h
      exact hI.plan j t h
  known j t h := by
    by_cases hji : j = i
    · rw [hji, setTask_self] at h
      exact fun r hr => (hknown t h r hr).mono hk
    · rw [setTask_of_ne w task db hji] at h
      exact fun r hr => (hI.known j t h r hr).mono hk

theorem inv_step (cfg : Settings) (w : World n) (e : Event n) (hI : Inv w) : Inv (step cfg w e) := by
  obtain h | ⟨i, now, call, err, rfl, hi, h⟩ | ⟨i, now, call, todo, rfl, hi, hprep, h⟩ |
    ⟨i, now, t, db, t', rfl, hi, _, hout, h⟩ | ⟨i, t, rfl, hi, h⟩ := step_cases cfg w e hI
  · rw [h]
    exact hI
  · rw [h]
    exact inv_setTask hI (keeps_of_eq rfl) (fun t ht => by cases ht) (fun t ht => by cases ht)
  · rw [h]
    refine inv_setTask hI (keeps_of_eq rfl) ?_ ?_
    · intro t ht
      cases ht
      exact prepare_plan hprep
    · intro t ht
      cases ht
      exact prepare_known hprep
  · rw [h]
    refine inv_setTask hI (hout.keeps (hI.known i t hi)) ?_ ?_
    · intro t₁ ht
      cases ht
      exact hout.plan
    · intro t₁ ht r hr
      cases ht
      refine hI.known i t hi r ?_
      obtain ⟨hp, _⟩ | ⟨_, _, _, hp, _⟩ | ⟨_, _, _, hp, _⟩ := hout.pending_cases
      · rwa [← hp]
      · rw [hp]
        exact List.mem_cons_of_mem _ hr
      · rw [hp]
        exact List.mem_cons_of_mem _ hr
  · rw [h]
    refine inv_setTask hI (keeps_of_eq rfl) ?_ ?_
    · intro t₁ ht
      cases ht
      exact hI.plan i t hi
    · intro t₁ ht
      cases ht
      exact hI.known i t hi

/-! ## Two calls on one request -/

/-- An administrator moves the expiry of the request. -/
def extend : Call :=
  .updateRequest ⟨2, true, [.changeAccessrequest], [(.changeAccessrequest, 1)]⟩ 1
    ⟨none, some (.aware 100)⟩

/-- Another one revokes it. -/
def revoke : Call :=
  .updateRequest ⟨3, true, [.changeAccessrequest], [(.changeAccessrequest, 1)]⟩ 1
    ⟨some "revoked", none⟩

end Keywarden.AccessSteps
