import Keywarden.AccessRun
import Keywarden.Authorization
import Keywarden.Shell

/-!
# Users who are no administrators

What users without the global permission to change access requests can do with
`create_request` and `update_request`: ask, and take back what is not decided. No
row is approved by it, so nobody's access to a server or a shell comes from it.
-/
namespace Keywarden.Escalation

open Rows Transitions Access Authorization

/-- `user_can_shell` of a user as the rows stand. -/
def userCanShell (user : User) (server : ServerId) (now : Instant) (site : Site) : Bool :=
  hasObjectPerm user .shellServer server site ||
    site.accessRequests.any fun r => grants now user.id server r && r.requestShell

theorem userCanShell_eq {site : Site} {user : User} {caller : Caller}
    (h : Represents site user caller) (server : ServerId) (now : Instant) :
    Shell.userCanShell caller server now site.toDb = userCanShell user server now site := by
  rw [Shell.userCanShell, h.objectPerm, h.id]
  rfl

/-- A call by an authenticated user without `access.change_accessrequest`. -/
def Unprivileged : AccessRun.Op → Prop
  | .createRequest caller _ | .updateRequest caller _ _ =>
    caller.isAuthenticated = true ∧ caller.hasPerm .changeAccessrequest = false
  | _ => False

/-- A call and the time it is made at. -/
structure Call where
  now : Instant
  op : AccessRun.Op

def step (cfg : Settings) (site : Site) (call : Call) : Site :=
  site.over fun db => AccessRun.apply cfg call.now db call.op

/-- From one state to a later one nobody gains access. -/
structure NoEscalation (site site' : Site) : Prop where
  approved : ∀ r' ∈ site'.accessRequests, r'.status = .approved → r' ∈ site.accessRequests
  rows : ∀ r ∈ site.accessRequests, ∃ r' ∈ site'.accessRequests, r'.id = r.id ∧
    r'.expiresAt = r.expiresAt ∧
      (r'.status = r.status ∨ (r.status = .pending ∧ r'.status = .cancelled))
  access : ∀ t t' u s, t ≤ t' → hasValidAccess t' u s site'.toDb = true →
    hasValidAccess t u s site.toDb = true
  shell : ∀ t t' user server, t ≤ t' → userCanShell user server t' site' = true →
    userCanShell user server t site = true

/-- What the calls leave of the tables that access depends on: approved rows are as
they were, every row is still there, and permissions on shells are untouched. -/
structure Kept (site site' : Site) : Prop where
  approved : ∀ r' ∈ site'.accessRequests, r'.status = .approved → r' ∈ site.accessRequests
  rows : ∀ r ∈ site.accessRequests, ∃ r' ∈ site'.accessRequests, r'.id = r.id ∧
    r'.expiresAt = r.expiresAt ∧
      (r'.status = r.status ∨ (r.status = .pending ∧ r'.status = .cancelled))
  shellPerms : ∀ u o, (⟨u, .shellServer, o⟩ : UserObjectPermission) ∈ site'.userObjectPermissions ↔
    ⟨u, .shellServer, o⟩ ∈ site.userObjectPermissions
  groups : site'.groupObjectPermissions = site.groupObjectPermissions

theorem Kept.refl (site : Site) : Kept site site :=
  ⟨fun _ hr _ => hr, fun r hr => ⟨r, hr, rfl, rfl, .inl rfl⟩, fun _ _ => Iff.rfl, rfl⟩

theorem Kept.trans {a b c : Site} (hab : Kept a b) (hbc : Kept b c) : Kept a c := by
  refine ⟨?_, ?_, ?_, hbc.groups.trans hab.groups⟩
  · exact fun r hr hs => hab.approved r (hbc.approved r hr hs) hs
  · intro r hr
    obtain ⟨q, hq, hid, he, hs⟩ := hab.rows r hr
    obtain ⟨p, hp, hid', he', hs'⟩ := hbc.rows q hq
    refine ⟨p, hp, hid'.trans hid, he'.trans he, ?_⟩
    obtain hs | ⟨hpend, hcan⟩ := hs
    · rw [← hs]
      exact hs'
    · right
      refine ⟨hpend, ?_⟩
      obtain hs' | ⟨hpend', _⟩ := hs'
      · rw [hs', hcan]
      · rw [hcan] at hpend'
        cases hpend'
  · exact fun u o => (hbc.shellPerms u o).trans (hab.shellPerms u o)

theorem grants_antitone {t t' : Instant} (h : t ≤ t') {u : UserId} {s : ServerId}
    {r : AccessRequest} (hg : grants t' u s r = true) : grants t u s r = true := by
  simp only [grants, Bool.and_eq_true] at hg ⊢
  exact ⟨hg.1, AccessRun.unexpired_antitone h hg.2⟩

theorem grants_approved {t : Instant} {u : UserId} {s : ServerId} {r : AccessRequest}
    (hg : grants t u s r = true) : r.status = .approved := by
  simp only [grants, Bool.and_eq_true, decide_eq_true_eq] at hg
  exact hg.1.2

theorem hasObjectPerm_shell {site site' : Site} (h : Kept site site') (user : User) (o : Nat) :
    hasObjectPerm user .shellServer o site' = hasObjectPerm user .shellServer o site := by
  simp only [hasObjectPerm, granted, h.shellPerms, h.groups]

theorem Kept.noEscalation {site site' : Site} (h : Kept site site') : NoEscalation site site' := by
  refine ⟨h.approved, h.rows, ?_, ?_⟩
  · intro t t' u s ht hacc
    obtain ⟨r, hr, hg⟩ := (Table.any_iff _ _).mp hacc
    exact (Table.any_iff _ _).mpr ⟨r, h.approved r hr (grants_approved hg), grants_antitone ht hg⟩
  · intro t t' user server ht hshell
    rw [userCanShell, Bool.or_eq_true] at hshell ⊢
    obtain hperm | hany := hshell
    · exact .inl (hasObjectPerm_shell h user server ▸ hperm)
    · obtain ⟨r, hr, hg⟩ := (Table.any_iff _ _).mp hany
      rw [Bool.and_eq_true] at hg
      refine .inr ((Table.any_iff _ _).mpr ⟨r, h.approved r hr (grants_approved hg.1), ?_⟩)
      rw [Bool.and_eq_true]
      exact ⟨grants_antitone ht hg.1, hg.2⟩

/-! ## The calls -/

theorem shell_sync (now : Instant) (r : AccessRequest) (db : Db) (u : UserId) (o : Nat) :
    (⟨u, .shellServer, o⟩ : UserObjectPermission) ∈
        (syncServerViewPerm now r db).userObjectPermissions ↔
      ⟨u, .shellServer, o⟩ ∈ db.userObjectPermissions := by
  unfold syncServerViewPerm viewPerm
  split <;> simp

theorem shell_assign (now : Instant) (r : AccessRequest) (created : Bool) (db : Db) (u : UserId)
    (o : Nat) :
    (⟨u, .shellServer, o⟩ : UserObjectPermission) ∈
        (assignAccessRequestPerms now r created db).userObjectPermissions ↔
      ⟨u, .shellServer, o⟩ ∈ db.userObjectPermissions := by
  cases created <;> simp [assignAccessRequestPerms, shell_sync]

theorem createRequest_kept {cfg : Settings} {caller : Caller} {now : Instant}
    {payload : AccessRequestCreateIn} {site : Site} {db' : Db} {r : AccessRequest}
    (h : createRequest cfg caller now payload site.toDb = .ok (r, db')) :
    Kept site (site.over fun _ => db') := by
  obtain ⟨-, rfl, rfl⟩ := createRequest_ok h
  have hmem := Table.mem_create site.accessRequests
    (newRequest cfg caller now payload payload.serverId) fun _ => rfl
  refine ⟨?_, ?_, fun u o => shell_assign _ _ _ _ u o, rfl⟩
  · intro q hq hs
    simp only [over_toDb, assignAccessRequestPerms_accessRequests] at hq
    obtain hq | rfl := (hmem q).mp hq
    · exact hq
    · cases hs
  · intro q hq
    refine ⟨q, ?_, rfl, rfl, .inl rfl⟩
    simp only [over_toDb, assignAccessRequestPerms_accessRequests]
    exact (hmem q).mpr (.inl hq)

theorem updateRequest_kept {cfg : Settings} {caller : Caller} {now : Instant} {requestId : Nat}
    {payload : AccessRequestUpdateIn} {site : Site} {db' : Db} {r : AccessRequest}
    (hn : caller.hasPerm .changeAccessrequest = false)
    (h : updateRequest cfg caller now requestId payload site.toDb = .ok (r, db')) :
    Kept site (site.over fun _ => db') := by
  obtain ⟨row, hrow, -, hr, rfl⟩ := updateRequest_ok h
  have hid : r.id = row.id := (applyUpdate_frame hr).1
  have happly := applyUpdate_unprivileged hn hr
  have hmem : ∀ q, q ∈ (syncServerViewPerm now r (saveRequest now r site.toDb)).accessRequests ↔
      q = r ∨ (q ∈ site.accessRequests ∧ q.id ≠ r.id) := by
    intro q
    simp only [syncServerViewPerm_accessRequests, saveRequest,
      assignAccessRequestPerms_accessRequests, Table.mem_save, key_accessRequest]
    refine or_congr_left ⟨fun hq => hq.1, fun hq => ⟨hq, row, hrow, hid.symm⟩⟩
  refine ⟨?_, ?_, ?_, rfl⟩
  · intro q hq hs
    obtain rfl | ⟨hq, _⟩ := (hmem q).mp hq
    · obtain rfl | ⟨_, rfl⟩ := happly
      · exact hrow
      · cases hs
    · exact hq
  · intro q hq
    by_cases hqr : q.id = r.id
    · have hqrow : q = row := Table.eq_of_key _ hq hrow (hqr.trans hid)
      refine ⟨r, (hmem r).mpr (.inl rfl), hqr.symm, ?_⟩
      rw [hqrow]
      obtain rfl | ⟨hpend, rfl⟩ := happly
      · exact ⟨rfl, .inl rfl⟩
      · exact ⟨rfl, .inr ⟨hpend, rfl⟩⟩
    · exact ⟨q, (hmem q).mpr (.inr ⟨hq, hqr⟩), rfl, rfl, .inl rfl⟩
  · intro u o
    rw [over_toDb, shell_sync, saveRequest, shell_assign]

theorem step_kept (cfg : Settings) (site : Site) {call : Call} (hc : Unprivileged call.op) :
    Kept site (step cfg site call) := by
  obtain ⟨now, op⟩ := call
  unfold step AccessRun.apply
  cases op with
  | createRequest caller payload =>
    simp only [Site.over]
    split
    · next h => exact createRequest_kept h
    · exact Kept.refl site
  | updateRequest caller requestId payload =>
    simp only [Site.over]
    split
    · next h => exact updateRequest_kept hc.2 h
    · exact Kept.refl site
  | expireAccessRequests => exact hc.elim
  | process self adminUser reason token => exact hc.elim

/-- No sequence of such calls gives anybody access, from any state. -/
theorem run_noEscalation (cfg : Settings) (site : Site) (calls : List Call)
    (hc : ∀ call ∈ calls, Unprivileged call.op) :
    NoEscalation site (run (step cfg) site calls) := by
  refine Kept.noEscalation ?_
  refine run_invariant (P := fun _ (call : Call) => Unprivileged call.op) (I := Kept site) ?_
    (Kept.refl site) (along_of_mem site hc)
  exact fun site' call h hcall => h.trans (step_kept cfg site' hcall)

/-- User 7 asks for server 1 until 50, cancels the request, and tries to approve it. -/
def attempts : List Call :=
  let caller : Caller := ⟨7, true, [.addAccessrequest], [(.changeAccessrequest, 1)]⟩
  [⟨1, .createRequest caller ⟨1, none, true, false, false, some (.aware 50)⟩⟩,
   ⟨2, .updateRequest caller 1 ⟨some "cancelled", none⟩⟩,
   ⟨3, .updateRequest caller 1 ⟨some "approved", some (.aware 100)⟩⟩]

theorem noEscalation_after_attempts :
    NoEscalation { toDb := AccessRun.oneServer }
      (run (step AccessRun.utc) { toDb := AccessRun.oneServer } attempts) := by
  refine run_noEscalation AccessRun.utc { toDb := AccessRun.oneServer } attempts fun call hc => ?_
  simp only [attempts, List.mem_cons, List.not_mem_nil, or_false] at hc
  obtain rfl | rfl | rfl := hc <;> exact ⟨rfl, rfl⟩

end Keywarden.Escalation
