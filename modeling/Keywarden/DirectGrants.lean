import Keywarden.AccessRun

/-!
# Grants that no request backs

The admin site lets an administrator give `view_server` to a user directly. Asking for
access and withdrawing a request that is pending decide nothing, but they save a request,
and every save recomputes the permission of its pair from the requests alone.
-/
namespace Keywarden.DirectGrants

open Rows Access

/-- The calls of the API about requests. -/
inductive Ask where
  | create : AccessRequestCreateIn → Ask
  | update : Nat → AccessRequestUpdateIn → Ask

def ask (cfg : Settings) (caller : Caller) (now : Instant) (db : Db) :
    Ask → Except HttpError (AccessRequest × Db)
  | .create payload => createRequest cfg caller now payload db
  | .update requestId payload => updateRequest cfg caller now requestId payload db

/-- An update by somebody who may change all requests, and so may decide about them. -/
def Ask.byAdmin (caller : Caller) : Ask → Bool
  | .create _ => false
  | .update _ _ => caller.hasPerm .changeAccessrequest

/-- The pair that a call is about. -/
def Ask.pair (caller : Caller) (db : Db) : Ask → Option (UserId × ServerId)
  | .create payload => some (caller.id, payload.serverId)
  | .update requestId _ => (db.accessRequests.find requestId).map fun r => (r.requester, r.server)

/-- The pair holds the permission exactly if an approved request gives it. -/
def Settled (now : Instant) (u : UserId) (s : ServerId) (db : Db) : Prop :=
  HoldsView db u s ↔ hasValidAccess now u s db = true

theorem hasValidAccess_congr {now : Instant} {u : UserId} {s : ServerId} {db db' : Db}
    (h : ∀ o, grants now u s o = true → (o ∈ db'.accessRequests ↔ o ∈ db.accessRequests)) :
    hasValidAccess now u s db' = hasValidAccess now u s db := by
  rw [Bool.eq_iff_iff, hasValidAccess, hasValidAccess, Table.any_iff, Table.any_iff]
  constructor
  · rintro ⟨o, ho, hg⟩
    exact ⟨o, (h o hg).mp ho, hg⟩
  · rintro ⟨o, ho, hg⟩
    exact ⟨o, (h o hg).mpr ho, hg⟩

theorem status_of_grants {now : Instant} {u : UserId} {s : ServerId} {r : AccessRequest}
    (h : grants now u s r = true) : r.status = .approved := by
  simp only [grants, Bool.and_eq_true, decide_eq_true_eq] at h
  exact h.1.2

/-- Synchronising a pair of which no grant has changed keeps all permissions exactly if the
pair is settled. -/
theorem sync_kept_iff {now : Instant} {r : AccessRequest} {db db' : Db}
    (hperms : ∀ u s, HoldsView db' u s ↔ HoldsView db u s)
    (hvalid : hasValidAccess now r.requester r.server db' =
      hasValidAccess now r.requester r.server db) :
    (∀ u s, HoldsView (syncServerViewPerm now r db') u s ↔ HoldsView db u s) ↔
      Settled now r.requester r.server db := by
  constructor
  · intro h
    have hpair := h r.requester r.server
    rw [holdsView_sync, if_pos ⟨rfl, rfl⟩, hvalid] at hpair
    exact hpair.symm
  · intro h u s
    rw [holdsView_sync]
    split
    · next hp =>
      obtain ⟨rfl, rfl⟩ := hp
      rw [hvalid]
      exact h.symm
    · exact hperms u s

theorem create_kept_iff {cfg : Settings} {caller : Caller} {now : Instant}
    {payload : AccessRequestCreateIn} {db db' : Db} {r : AccessRequest}
    (h : createRequest cfg caller now payload db = .ok (r, db')) :
    (∀ u s, HoldsView db' u s ↔ HoldsView db u s) ↔ Settled now caller.id payload.serverId db := by
  obtain ⟨_, rfl, rfl⟩ := createRequest_ok h
  simp only [holdsView_assignAccessRequestPerms]
  refine sync_kept_iff (fun u s => Iff.rfl) (hasValidAccess_congr fun o hg => ?_)
  rw [Table.mem_create _ _ (fun _ => rfl)]
  refine ⟨fun ho => ho.resolve_right ?_, .inl⟩
  rintro rfl
  cases status_of_grants hg

/-- A request that is withdrawn has granted nothing. -/
theorem update_kept_iff {cfg : Settings} {caller : Caller} {now : Instant} {requestId : Nat}
    {payload : AccessRequestUpdateIn} {db db' : Db} {r : AccessRequest}
    (hcaller : caller.hasPerm .changeAccessrequest = false)
    (h : updateRequest cfg caller now requestId payload db = .ok (r, db')) :
    ∃ row, db.accessRequests.find requestId = some row ∧
      ((∀ u s, HoldsView db' u s ↔ HoldsView db u s) ↔ Settled now row.requester row.server db) := by
  obtain ⟨row, hrow, hid, happly, rfl⟩ := updateRequest_ok h
  obtain ⟨_, hrequester, hserver⟩ := applyUpdate_frame happly
  refine ⟨row, (Table.find_eq_some _ _ _).mpr ⟨hrow, hid⟩, ?_⟩
  rw [← hrequester, ← hserver]
  simp only [saveRequest, assignAccessRequestPerms, Bool.false_eq_true, if_false, holdsView_sync_sync]
  refine sync_kept_iff (fun u s => Iff.rfl) (hasValidAccess_congr fun o hg => ?_)
  obtain rfl | ⟨hpending, rfl⟩ := applyUpdate_unprivileged hcaller happly
  · rw [Table.save_of_mem _ hrow]
  · rw [Table.mem_save]
    constructor
    · rintro (⟨rfl, _⟩ | ⟨ho, _⟩)
      · cases status_of_grants hg
      · exact ho
    · refine fun ho => .inr ⟨ho, fun hk => ?_⟩
      obtain rfl := Table.eq_of_key _ ho hrow hk
      rw [status_of_grants hg] at hpending
      cases hpending

/-- A call that asks leaves all permissions as they were exactly if the pair that it is
about was settled. -/
theorem kept_iff {cfg : Settings} {caller : Caller} {now : Instant} {a : Ask} {db db' : Db}
    {r : AccessRequest} (hcaller : a.byAdmin caller = false)
    (h : ask cfg caller now db a = .ok (r, db')) :
    (∀ u s, HoldsView db' u s ↔ HoldsView db u s) ↔
      ∀ pair ∈ a.pair caller db, Settled now pair.1 pair.2 db := by
  cases a with
  | create payload =>
    simp only [create_kept_iff h, Ask.pair, Option.mem_some, forall_eq']
  | update requestId payload =>
    obtain ⟨row, hrow, hkept⟩ := update_kept_iff hcaller h
    simp only [hkept, Ask.pair, hrow, Option.map_some, Option.mem_some, forall_eq']

/-! ## A user who was let in directly -/

/-- User 7 may view server 1 and has made no request. -/
def directGrant : Db :=
  { AccessRun.oneServer with userObjectPermissions := {⟨7, .viewServer, 1⟩} }

def asking : Ask := .create ⟨1, none, true, false, false, none⟩

def user7 : Caller := ⟨7, true, [.addAccessrequest], []⟩

/-- Somebody who has no grant asks, and gets none. -/
theorem kept_oneServer : ∃ r db', ask AccessRun.utc user7 10 AccessRun.oneServer asking = .ok (r, db') ∧
    ∀ u s, HoldsView db' u s ↔ HoldsView AccessRun.oneServer u s := by
  have hplain : asking.byAdmin user7 = false := rfl
  have hask : ∃ r db', ask AccessRun.utc user7 10 AccessRun.oneServer asking = .ok (r, db') :=
    ⟨_, _, rfl⟩
  obtain ⟨r, db', h⟩ := hask
  refine ⟨r, db', h, (kept_iff hplain h).mpr ?_⟩
  simp only [asking, Ask.pair, Option.mem_some, forall_eq']
  unfold Settled
  decide

/-- Asking for more access to the server takes the access to it away. -/
theorem grant_taken_away :
    ¬ ∀ (cfg : Settings) (caller : Caller) (now : Instant) (a : Ask) (db db' : Db) (r : AccessRequest),
      a.byAdmin caller = false → ask cfg caller now db a = .ok (r, db') →
        ∀ u s, HoldsView db' u s ↔ HoldsView db u s := by
  intro h
  have hkept := h AccessRun.utc user7 10 asking directGrant _ _ rfl rfl 7 1
  exact absurd (hkept.mpr (by decide)) (by decide)

end Keywarden.DirectGrants
