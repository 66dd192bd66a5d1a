import Mathlib.Data.List.Sort
import Keywarden.Models
import Keywarden.Text

/-!
# Access requests

`apps/access` and the access router of the API. Access to a server is granted by
an approved request that has not run out; what the user holds in guardian is
recomputed by `syncServerViewPerm` after every save of a request row and by the
periodic sweep. A handler either fails before it writes or succeeds, so it is a
function to `Except`.
-/
namespace Keywarden.Access

open Rows Text

structure AccessRequestCreateIn where
  serverId : Nat
  reason : Option (List Char)
  requestShell : Bool
  requestLogs : Bool
  requestUsers : Bool
  expiresAt : Option Datetime
  deriving DecidableEq, Repr

structure AccessRequestUpdateIn where
  status : Option String
  expiresAt : Option Datetime
  deriving DecidableEq, Repr

/-- `Q(expires_at__isnull=True) | Q(expires_at__gt=now)`. -/
def unexpired (now : Instant) (r : AccessRequest) : Bool :=
  match r.expiresAt with
  | none => true
  | some e => decide (now < e)

/-- The row grants its requester the server. -/
def grants (now : Instant) (u : UserId) (s : ServerId) (r : AccessRequest) : Bool :=
  r.requester = u && r.server = s && r.status = .approved && unexpired now r

def hasValidAccess (now : Instant) (u : UserId) (s : ServerId) (db : Db) : Bool :=
  db.accessRequests.any (grants now u s)

def viewPerm (r : AccessRequest) : UserObjectPermission := ⟨r.requester, .viewServer, r.server⟩

/-- The guard for a missing instance or foreign key cannot fire here: both columns
are NOT NULL and automatic keys start at one. -/
def syncServerViewPerm (now : Instant) (r : AccessRequest) (db : Db) : Db :=
  if hasValidAccess now r.requester r.server db then assignPerm (viewPerm r) db
  else removePerm (viewPerm r) db

/-- The `post_save` receiver. `assign_default_object_permissions` finds only `add_`
codenames for the user role and assigns nothing to a group. -/
def assignAccessRequestPerms (now : Instant) (r : AccessRequest) (created : Bool) (db : Db) : Db :=
  if created then
    let db := assignPerm ⟨r.requester, .viewAccessrequest, r.id⟩ db
    let db := assignPerm ⟨r.requester, .changeAccessrequest, r.id⟩ db
    syncServerViewPerm now r db
  else syncServerViewPerm now r db

/-- `access_request.save()` on a row that exists, with its signal. -/
def saveRequest (now : Instant) (r : AccessRequest) (db : Db) : Db :=
  assignAccessRequestPerms now r false { db with accessRequests := db.accessRequests.save r }

def newRequest (cfg : Settings) (caller : Caller) (now : Instant) (payload : AccessRequestCreateIn)
    (server : ServerId) (id : Nat) : AccessRequest where
  id := id
  requester := caller.id
  server := server
  status := .pending
  reason := strip isSpace (payload.reason.getD [])
  requestShell := payload.requestShell
  requestLogs := payload.requestLogs
  requestUsers := payload.requestUsers
  requestedAt := now
  decidedAt := none
  expiresAt := payload.expiresAt.map cfg.toInstant
  decidedBy := none

def createRequest (cfg : Settings) (caller : Caller) (now : Instant)
    (payload : AccessRequestCreateIn) (db : Db) : Except HttpError (AccessRequest × Db) :=
  if !caller.isAuthenticated then .error forbidden
  else if !caller.hasPerm .addAccessrequest then .error forbidden
  else match db.servers.find payload.serverId with
    | none => .error ⟨404, none, "Server not found"⟩
    | some server =>
      let mk := newRequest cfg caller now payload server.id
      let r := mk db.accessRequests.fresh
      .ok (r, assignAccessRequestPerms now r true
        { db with accessRequests := db.accessRequests.create mk })

/-- The statuses an administrator may set. -/
def adminStatus (status : String) : Option Status :=
  [Status.approved, .denied, .revoked, .cancelled].find? fun s => s.value = status

def setExpiry (cfg : Settings) (isAdmin : Bool) (payload : AccessRequestUpdateIn)
    (r : AccessRequest) : Except HttpError AccessRequest :=
  match payload.expiresAt with
  | none => .ok r
  | some d => if isAdmin then .ok { r with expiresAt := some (cfg.toInstant d) } else .error forbidden

def setStatus (caller : Caller) (isAdmin : Bool) (now : Instant) (payload : AccessRequestUpdateIn)
    (r : AccessRequest) : Except HttpError AccessRequest :=
  match payload.status with
  | none => .ok r
  | some status =>
    if isAdmin then
      match adminStatus status with
      | none => .error ⟨422, some "status", "Invalid status."⟩
      | some s => .ok { r with status := s, decidedAt := some now, decidedBy := some caller.id }
    else if status ≠ Status.cancelled.value then .error forbidden
    else if r.status ≠ .pending then
      .error ⟨422, some "status", "Only pending requests can be cancelled."⟩
    else .ok { r with status := .cancelled, decidedAt := some now, decidedBy := none }

/-- What `update_request` makes of the row it read, up to the save. -/
def applyUpdate (cfg : Settings) (caller : Caller) (now : Instant)
    (payload : AccessRequestUpdateIn) (r : AccessRequest) : Except HttpError AccessRequest :=
  if !caller.hasObjectPerm .changeAccessrequest r.id then .error forbidden
  else
    let isAdmin := caller.hasPerm .changeAccessrequest
    if payload.status = none ∧ payload.expiresAt = none then .error noFields
    else (setExpiry cfg isAdmin payload r).bind (setStatus caller isAdmin now payload)

def updateRequest (cfg : Settings) (caller : Caller) (now : Instant) (requestId : Nat)
    (payload : AccessRequestUpdateIn) (db : Db) : Except HttpError (AccessRequest × Db) :=
  if !caller.isAuthenticated then .error forbidden
  else match db.accessRequests.find requestId with
    | none => .error notFound
    | some row =>
      match applyUpdate cfg caller now payload row with
      | .error e => .error e
      | .ok r => .ok (r, syncServerViewPerm now r (saveRequest now r db))

/-- The filter of the sweep. -/
def isExpiring (now : Instant) (r : AccessRequest) : Bool :=
  r.status = .approved &&
    match r.expiresAt with
    | none => false
    | some e => decide (e ≤ now)

/-- The columns `save(update_fields=…)` writes in the sweep. -/
def markExpired (now : Instant) : Table.Edit AccessRequest where
  apply r := { r with status := .expired, decidedAt := some now, decidedBy := none }
  key_apply _ := rfl

def expireOne (now : Instant) (db : Db) (r : AccessRequest) : Db :=
  let db := { db with
    accessRequests := db.accessRequests.update (fun o => o.id = r.id) (markExpired now) }
  syncServerViewPerm now r (assignAccessRequestPerms now r false db)

/-- The rows the sweep selects, in the order of `Meta.ordering`. -/
def expiring (now : Instant) (db : Db) : List AccessRequest :=
  (db.accessRequests.filter (isExpiring now)).insertionSort
    fun a b => b.requestedAt ≤ a.requestedAt

/-- The sweep returns the number of rows it expired. -/
def expireAccessRequests (now : Instant) (db : Db) : Nat × Db :=
  ((expiring now db).length, (expiring now db).foldl (expireOne now) db)

/-! ## What a synchronisation does -/

@[simp] theorem syncServerViewPerm_accessRequests (now : Instant) (r : AccessRequest) (db : Db) :
    (syncServerViewPerm now r db).accessRequests = db.accessRequests := by
  unfold syncServerViewPerm
  split <;> rfl

@[simp] theorem hasValidAccess_sync (now t : Instant) (u : UserId) (s : ServerId)
    (r : AccessRequest) (db : Db) :
    hasValidAccess t u s (syncServerViewPerm now r db) = hasValidAccess t u s db := by
  simp [hasValidAccess]

/-- The cached permissions are all it writes. -/
theorem syncServerViewPerm_frame (now : Instant) (r : AccessRequest) (db : Db) :
    ∃ p, syncServerViewPerm now r db = { db with userObjectPermissions := p } := by
  unfold syncServerViewPerm
  split <;> exact ⟨_, rfl⟩

/-- The synchronised pair holds the permission exactly when a row grants it; no
other pair is touched. -/
theorem holdsView_sync (now : Instant) (r : AccessRequest) (db : Db) (u : UserId) (s : ServerId) :
    HoldsView (syncServerViewPerm now r db) u s ↔
      if r.requester = u ∧ r.server = s then hasValidAccess now u s db = true
      else HoldsView db u s := by
  unfold syncServerViewPerm HoldsView viewPerm
  by_cases hp : r.requester = u ∧ r.server = s
  · rw [if_pos hp, hp.1, hp.2]
    split
    · next hv => simp [hv]
    · next hv => simp [hv]
  · have hne : (⟨u, .viewServer, s⟩ : UserObjectPermission) ≠ ⟨r.requester, .viewServer, r.server⟩ := by
      intro h
      simp only [UserObjectPermission.mk.injEq, true_and] at h
      exact hp ⟨h.1.symm, h.2.symm⟩
    rw [if_neg hp]
    split <;> simp [hne]

/-- Synchronising twice is synchronising once. -/
theorem holdsView_sync_sync (now : Instant) (r : AccessRequest) (db : Db)
    (u : UserId) (s : ServerId) :
    HoldsView (syncServerViewPerm now r (syncServerViewPerm now r db)) u s ↔
      HoldsView (syncServerViewPerm now r db) u s := by
  simp only [holdsView_sync, hasValidAccess_sync]
  split <;> rfl

@[simp] theorem assignAccessRequestPerms_accessRequests (now : Instant) (r : AccessRequest)
    (created : Bool) (db : Db) :
    (assignAccessRequestPerms now r created db).accessRequests = db.accessRequests := by
  unfold assignAccessRequestPerms
  cases created <;> simp

theorem assignAccessRequestPerms_frame (now : Instant) (r : AccessRequest) (created : Bool) (db : Db) :
    ∃ p, assignAccessRequestPerms now r created db = { db with userObjectPermissions := p } := by
  cases created with
  | false => exact syncServerViewPerm_frame now r db
  | true => exact syncServerViewPerm_frame now r _

theorem holdsView_assignAccessRequestPerms (now : Instant) (r : AccessRequest) (created : Bool)
    (db : Db) (u : UserId) (s : ServerId) :
    HoldsView (assignAccessRequestPerms now r created db) u s ↔
      HoldsView (syncServerViewPerm now r db) u s := by
  cases created with
  | false => rfl
  | true =>
    simp only [assignAccessRequestPerms, if_true, holdsView_sync]
    split
    · rfl
    · simp [HoldsView]

theorem hasValidAccess_iff (now : Instant) (u : UserId) (s : ServerId) (db : Db) :
    hasValidAccess now u s db = true ↔ ∃ r ∈ db.accessRequests,
      r.requester = u ∧ r.server = s ∧ r.status = .approved ∧ unexpired now r = true := by
  simp [hasValidAccess, Table.any_iff, grants, and_assoc]

/-! ## What an accepted update does -/

theorem bind_ok {ε α β : Type} {x : Except ε α} {f : α → Except ε β} {b : β}
    (h : x.bind f = .ok b) : ∃ a, x = .ok a ∧ f a = .ok b := by
  cases x with
  | error e => cases h
  | ok a => exact ⟨a, rfl, h⟩

theorem setExpiry_ok {cfg : Settings} {isAdmin : Bool} {payload : AccessRequestUpdateIn}
    {r q : AccessRequest} (h : setExpiry cfg isAdmin payload r = .ok q) :
    (payload.expiresAt = none ∧ q = r) ∨
    (∃ d, payload.expiresAt = some d ∧ isAdmin = true ∧
      q = { r with expiresAt := some (cfg.toInstant d) }) := by
  unfold setExpiry at h
  cases hd : payload.expiresAt with
  | none =>
    rw [hd] at h
    cases h
    exact .inl ⟨rfl, rfl⟩
  | some d =>
    rw [hd] at h
    simp only at h
    split at h
    · cases h; exact .inr ⟨d, rfl, by assumption, rfl⟩
    · cases h

/-- An administrator sets one of four statuses, anybody else cancels what is pending. -/
theorem setStatus_ok {caller : Caller} {isAdmin : Bool} {now : Instant}
    {payload : AccessRequestUpdateIn} {r q : AccessRequest}
    (h : setStatus caller isAdmin now payload r = .ok q) :
    (payload.status = none ∧ q = r) ∨
    (isAdmin = true ∧ ∃ v s, payload.status = some v ∧ adminStatus v = some s ∧
      q = { r with status := s, decidedAt := some now, decidedBy := some caller.id }) ∨
    (isAdmin = false ∧ payload.status = some Status.cancelled.value ∧ r.status = .pending ∧
      q = { r with status := .cancelled, decidedAt := some now, decidedBy := none }) := by
  unfold setStatus at h
  cases hv : payload.status with
  | none =>
    rw [hv] at h
    cases h
    exact .inl ⟨rfl, rfl⟩
  | some v =>
    rw [hv] at h
    simp only at h
    right
    cases isAdmin with
    | true =>
      left
      rw [if_pos rfl] at h
      cases hs : adminStatus v with
      | none => rw [hs] at h; cases h
      | some s => rw [hs] at h; cases h; exact ⟨rfl, v, s, rfl, hs, rfl⟩
    | false =>
      right
      rw [if_neg (by decide)] at h
      split at h
      · cases h
      split at h
      · cases h
      · next hc hp =>
        cases h
        exact ⟨rfl, by rw [not_not.mp hc], not_not.mp hp, rfl⟩

theorem applyUpdate_ok {cfg : Settings} {caller : Caller} {now : Instant}
    {payload : AccessRequestUpdateIn} {r r' : AccessRequest}
    (h : applyUpdate cfg caller now payload r = .ok r') :
    ∃ q, setExpiry cfg (caller.hasPerm .changeAccessrequest) payload r = .ok q ∧
      setStatus caller (caller.hasPerm .changeAccessrequest) now payload q = .ok r' := by
  unfold applyUpdate at h
  split at h
  · cases h
  simp only at h
  split at h
  · cases h
  · exact bind_ok h

/-- The columns `update_request` never writes. -/
theorem applyUpdate_frame {cfg : Settings} {caller : Caller} {now : Instant}
    {payload : AccessRequestUpdateIn} {r r' : AccessRequest}
    (h : applyUpdate cfg caller now payload r = .ok r') :
    r'.id = r.id ∧ r'.requester = r.requester ∧ r'.server = r.server := by
  obtain ⟨q, hq, hr⟩ := applyUpdate_ok h
  have hqr : q.id = r.id ∧ q.requester = r.requester ∧ q.server = r.server := by
    obtain ⟨_, rfl⟩ | ⟨d, _, _, rfl⟩ := setExpiry_ok hq <;> exact ⟨rfl, rfl, rfl⟩
  obtain ⟨_, rfl⟩ | ⟨_, v, s, _, _, rfl⟩ | ⟨_, _, _, rfl⟩ := setStatus_ok hr <;> exact hqr

/-- An update by a user who is no administrator cancels a pending request or leaves
the row as it is. -/
theorem applyUpdate_unprivileged {cfg : Settings} {caller : Caller} {now : Instant}
    {payload : AccessRequestUpdateIn} {r r' : AccessRequest}
    (hn : caller.hasPerm .changeAccessrequest = false)
    (h : applyUpdate cfg caller now payload r = .ok r') :
    r' = r ∨ (r.status = .pending ∧
      r' = { r with status := .cancelled, decidedAt := some now, decidedBy := none }) := by
  obtain ⟨q, hq, hr⟩ := applyUpdate_ok h
  rw [hn] at hq hr
  obtain ⟨_, rfl⟩ | ⟨_, _, hadmin, _⟩ := setExpiry_ok hq
  · obtain ⟨_, rfl⟩ | ⟨hadmin, _⟩ | ⟨_, _, hpend, rfl⟩ := setStatus_ok hr
    · exact .inl rfl
    · cases hadmin
    · exact .inr ⟨hpend, rfl⟩
  · cases hadmin

/-! ## What is written -/

/-- A request that is created is the only new row. -/
theorem createRequest_ok {cfg : Settings} {caller : Caller} {now : Instant}
    {payload : AccessRequestCreateIn} {db db' : Db} {r : AccessRequest}
    (h : createRequest cfg caller now payload db = .ok (r, db')) :
    caller.isAuthenticated = true ∧
      r = newRequest cfg caller now payload payload.serverId db.accessRequests.fresh ∧
      db' = assignAccessRequestPerms now r true
        { db with
          accessRequests := db.accessRequests.create
            (newRequest cfg caller now payload payload.serverId) } := by
  unfold createRequest at h
  split at h
  · cases h
  · next hauth =>
    split at h
    · cases h
    split at h
    · cases h
    · next server hserver =>
      have hid : server.id = payload.serverId := ((Table.find_eq_some _ _ _).mp hserver).2
      cases h
      rw [hid]
      exact ⟨by simpa using hauth, rfl, rfl⟩

/-- The row that an update saves is made of the stored one. -/
theorem updateRequest_ok {cfg : Settings} {caller : Caller} {now : Instant} {requestId : Nat}
    {payload : AccessRequestUpdateIn} {db db' : Db} {r : AccessRequest}
    (h : updateRequest cfg caller now requestId payload db = .ok (r, db')) :
    ∃ row ∈ db.accessRequests, row.id = requestId ∧ applyUpdate cfg caller now payload row = .ok r ∧
      db' = syncServerViewPerm now r (saveRequest now r db) := by
  unfold updateRequest at h
  split at h
  · cases h
  split at h
  · cases h
  · next row hrow =>
    split at h
    · cases h
    · next r' hr' =>
      cases h
      obtain ⟨hmem, hid⟩ := (Table.find_eq_some _ _ _).mp hrow
      exact ⟨row, hmem, hid, hr', rfl⟩

/-- The two synchronisations of a save write the cached permissions. -/
theorem resynced_frame (now : Instant) (r : AccessRequest) (created : Bool) (db : Db) :
    ∃ p, syncServerViewPerm now r (assignAccessRequestPerms now r created db) =
      { db with userObjectPermissions := p } := by
  obtain ⟨p, hp⟩ := assignAccessRequestPerms_frame now r created db
  obtain ⟨q, hq⟩ := syncServerViewPerm_frame now r { db with userObjectPermissions := p }
  exact ⟨q, by rw [hp, hq]⟩

theorem expireOne_frame (now : Instant) (db : Db) (r : AccessRequest) :
    ∃ p, expireOne now db r = { db with
      accessRequests := db.accessRequests.update (fun o => o.id = r.id) (markExpired now)
      userObjectPermissions := p } :=
  resynced_frame now r false _

end Keywarden.Access
