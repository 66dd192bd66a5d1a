import Keywarden.AgentSync
import Keywarden.Authorization
import Keywarden.Shell

/-!
# What the server knows of the accounts

One cycle of an agent: `account_access` tells it the users of its server, it
synchronises the accounts of the host, and `sync_report` stores what it reports. A
report is about the users of the list only, so the row of a user who is not in the
list any more stays as the last report about the user left it.
-/
namespace Keywarden.AccountReports

open Rows Transitions AgentHost AgentSync ServerAccounts Keys Username
open Authorization (resolveAccessUsers mem_resolveAccessUsers)

/-- `AccountAccessOut`; the `keys` are always empty. -/
structure AccountAccessOut where
  userId : Int
  username : List Char
  email : List Char
  systemUsername : List Char
  deriving DecidableEq, Repr

def accessOut (cfg : Settings) (T : CaseTable) (user : User) : AccountAccessOut where
  userId := user.id
  username := user.username
  email := user.email
  systemUsername := Shell.rendered cfg T user

def accountAccess (cfg : Settings) (T : CaseTable) (serverId : Nat) (site : Authorization.Site) :
    Except Raised (List AccountAccessOut) :=
  match site.servers.find serverId with
  | none => .error (.http ⟨404, none, "Server not found"⟩)
  | some server => .ok ((resolveAccessUsers server.id site).map (accessOut cfg T))

/-- One cycle: what happens to the database before it, the orders the maps of the agent
are gone through in, the time of the report and whether its telemetry can be stored. -/
structure Cycle where
  between : Authorization.Site → Authorization.Site := id
  currentOrder : Iteration := .listed
  desiredOrder : Iteration := .listed
  now : Instant := 0
  telemetryStored : Bool := true

/-- The call of `Sync` in `SyncAccounts`. -/
def Cycle.call (c : Cycle) (users : List AccountAccessOut) : SyncCall where
  users := users.map fun user => ⟨user.userId, user.username, user.systemUsername⟩
  currentOrder := c.currentOrder
  desiredOrder := c.desiredOrder

/-- The report of `SyncAccounts`. Without accounts the field is left out, and the schema
puts the empty list back. -/
def Cycle.report (c : Cycle) (result : Result) : SyncReportIn where
  accounts := result.accounts.map fun account =>
    ⟨account.userID, account.systemUser, account.present⟩
  telemetryStored := c.telemetryStored

/-- The database, the host of the agent, and the users of the latest list. -/
structure World where
  site : Authorization.Site
  agent : System
  listed : List Int

section

variable (cfg : Settings) (T : CaseTable) (policy : AccountPolicy) (serverId : ServerId)

def cycle (w : World) (c : Cycle) : World :=
  let site := c.between w.site
  match accountAccess cfg T serverId site with
  | .error _ => { w with site }
  | .ok users =>
    let (result, _, agent) := sync T policy (c.call users) w.agent
    { site := site.over fun db => (syncReport c.now serverId (c.report result) db).2
      agent
      listed := users.map AccountAccessOut.userId }

/-- `sync_report` accepts the report of the cycle. -/
def Accepted (w : World) (c : Cycle) : Prop :=
  ∃ users, accountAccess cfg T serverId (c.between w.site) = .ok users ∧
    (syncReport c.now serverId (c.report (sync T policy (c.call users) w.agent).1)
      (c.between w.site).toDb).1 = .ok ()

/-- Between two cycles the account rows of the server change only by the deletion of
their user. -/
def KeepsRows (w : World) (c : Cycle) : Prop :=
  ∀ r : ServerAccount, r.server = serverId →
    (r ∈ (c.between w.site).serverAccounts ↔
      r ∈ w.site.serverAccounts ∧ ((c.between w.site).users.find r.user).isSome = true)

/-- What the cycles of a run have in common: nothing fails, and the rows are left alone
between them. -/
def Undisturbed (w : World) (c : Cycle) : Prop :=
  Accepted cfg T policy serverId w c ∧ KeepsRows serverId w c

/-- A server before its first cycle. -/
def start (site : Authorization.Site) (agent : System) : World := ⟨site, agent, []⟩

/-- A row says that the user is present on the server. -/
def Present (db : Db) (u : UserId) : Prop :=
  ∃ r ∈ db.serverAccounts, r.server = serverId ∧ r.user = u ∧ r.isPresent = true

/-- The rows say exactly who was in the latest list. -/
def Faithful (w : World) : Prop :=
  ∀ u : UserId, Present serverId w.site.toDb u ↔ (u : Int) ∈ w.listed

/-- No user of the latest list has lost access since, unless the user is gone. -/
def NobodyDropped (w : World) (c : Cycle) : Prop :=
  ∀ u : UserId, (u : Int) ∈ w.listed → ((c.between w.site).users.find u).isSome = true →
    ∃ user ∈ resolveAccessUsers serverId (c.between w.site), user.id = u

end

variable {cfg : Settings} {T : CaseTable} {policy : AccountPolicy} {serverId : ServerId}

/-! ## The report of a synchronisation without failures -/

theorem provision_loop_accounts (l : List ManagedAccount) (p : Progress)
    (hg : p.host.group = true) :
    (l.foldl (provisionOne noFaults policy) p).result.accounts =
      p.result.accounts ++ l.map fun r => ⟨r.userID, r.systemUser, true⟩ := by
  induction l generalizing p with
  | nil => simp
  | cons r l ih =>
    obtain ⟨hpres, _⟩ := ensureAccount_noFaults policy (provisionSite r) p.host hg
    have hone : (provisionOne noFaults policy p r).result.accounts =
        p.result.accounts ++ [⟨r.userID, r.systemUser, true⟩] := by
      simp only [provisionOne, hpres]
    rw [List.foldl_cons, ih _ ((provisionOne_frame noFaults policy p r).1.trans hg), hone,
      List.append_assoc]
    rfl

/-- Each wanted account is reported present, and nothing else is reported. -/
theorem sync_accounts {call : SyncCall} (hf : call.faults = noFaults) (hio : call.StateFileOk)
    {sys : System} (hfile : sys.file ≠ .torn) :
    (sync T policy call sys).1.accounts =
      (call.desiredOrder.visit (desired T policy call.users).toList).map
        fun r => ⟨r.userID, r.systemUser, true⟩ := by
  obtain ⟨hread, hsave⟩ := hio
  let p₀ : Progress := ⟨(ensureGroup noFaults sys.host).1, (ensureGroup noFaults sys.host).2, {}⟩
  let p₁ := (call.currentOrder.visit sys.file.users).foldl
    (revokeOne noFaults policy (desired T policy call.users)) p₀
  have hsync : (sync T policy call sys).1 = ((call.desiredOrder.visit
      (desired T policy call.users).toList).foldl (provisionOne noFaults policy) p₁).result := by
    unfold sync
    rw [hread, loadState_ok hfile, hsave, hf]
  have hrev := revoke_loop_group noFaults policy (desired T policy call.users)
    (call.currentOrder.visit sys.file.users) p₀
  rw [hsync, provision_loop_accounts _ _ (hrev.1.trans (ensureGroup_noFaults sys.host)), hrev.2]
  rfl

theorem sync_file {call : SyncCall} (hio : call.StateFileOk) {sys : System}
    (hfile : sys.file ≠ .torn) : (sync T policy call sys).2.2.file ≠ .torn := by
  obtain ⟨hread, hsave⟩ := hio
  have hsync : (sync T policy call sys).2.2.file = .saved (desired T policy call.users).toList := by
    unfold sync
    rw [hread, loadState_ok hfile, hsave]
    rfl
  rw [hsync]
  simp

/-! ## What a report stores -/

theorem present_upsert (now : Instant) (user : User) {account : AccountSyncIn}
    (hp : account.present = true) (db : Db) (u : UserId) :
    Present serverId { db with
      serverAccounts := db.serverAccounts.upsert (accountRow serverId user now account) } u ↔
      u = user.id ∨ Present serverId db u := by
  unfold Present
  simp only [Table.mem_upsert, key_serverAccount]
  constructor
  · rintro ⟨r, rfl | ⟨hr, hk⟩, hs, hu, hpr⟩
    · exact .inl hu.symm
    · exact .inr ⟨r, hr, hs, hu, hpr⟩
  · rintro (rfl | ⟨r, hr, hs, hu, hpr⟩)
    · exact ⟨_, .inl rfl, rfl, rfl, hp⟩
    · by_cases hk : (r.server, r.user) = (serverId, user.id)
      · have hid : r.user = user.id := (Prod.mk.inj hk).2
        exact ⟨_, .inl rfl, rfl, hid.symm.trans hu, hp⟩
      · exact ⟨r, .inr ⟨hr, hk⟩, hs, hu, hpr⟩

/-- A report in which every account is present adds its users that exist. -/
theorem present_updateServerAccounts {now : Instant} {accounts : List AccountSyncIn} {db : Db}
    (hok : (updateServerAccounts now serverId accounts db).1 = .ok ())
    (hall : ∀ a ∈ accounts, a.present = true) (u : UserId) :
    Present serverId (updateServerAccounts now serverId accounts db).2 u ↔
      Present serverId db u ∨ ∃ a ∈ accounts, a.userId = u ∧ (db.users.find u).isSome = true := by
  induction accounts generalizing db with
  | nil => simp [updateServerAccounts]
  | cons a accounts ih =>
    have hall' := fun b hb => hall b (List.mem_cons_of_mem a hb)
    have ha := hall a List.mem_cons_self
    unfold updateServerAccounts at hok ⊢
    simp only [List.exists_mem_cons_iff]
    cases hf : findUser a.userId db with
    | none =>
      rw [hf] at hok
      have hno : ¬ (a.userId = u ∧ (db.users.find u).isSome = true) := by
        rintro ⟨hu, hs⟩
        rw [hu, findUser_natCast] at hf
        simp [hf] at hs
      simp only [hno, false_or]
      exact ih hok hall'
    | some user =>
      obtain ⟨hmem, hid⟩ := findUser_eq_some hf
      rw [hf] at hok
      have hself : u = user.id ↔ a.userId = u ∧ (db.users.find u).isSome = true := by
        constructor
        · rintro rfl
          exact ⟨hid.symm, Option.isSome_iff_exists.mpr
            ⟨user, (Table.find_eq_some _ _ _).mpr ⟨hmem, rfl⟩⟩⟩
        · rintro ⟨hu, _⟩
          exact Int.ofNat.inj (hid.trans hu).symm
      simp only at hok ⊢
      split at hok
      · next hfits =>
        rw [if_pos hfits, ih hok hall', present_upsert now user ha, hself, or_assoc]
        exact or_left_comm
      · cases hok

theorem present_syncReport {now : Instant} {payload : SyncReportIn} {db : Db}
    (hok : (syncReport now serverId payload db).1 = .ok ())
    (hall : ∀ a ∈ payload.accounts, a.present = true) (u : UserId) :
    Present serverId (syncReport now serverId payload db).2 u ↔
      Present serverId db u ∨
        ∃ a ∈ payload.accounts, a.userId = u ∧ (db.users.find u).isSome = true := by
  unfold syncReport at hok ⊢
  cases hs : db.servers.find serverId with
  | none =>
    rw [hs] at hok
    cases hok
  | some server =>
    have hid : server.id = serverId := ((Table.find_eq_some _ _ _).mp hs).2
    rw [hs] at hok
    simp only [hid] at hok ⊢
    split at hok
    · next ht =>
      rw [if_pos ht]
      exact present_updateServerAccounts hok hall u
    · cases hok

/-! ## Cycles -/

/-- The invariant of cycles in which nothing fails: the agent can read its state file. -/
def Readable (w : World) : Prop := w.agent.file ≠ .torn

theorem report_accounts {c : Cycle} {users : List AccountAccessOut} {sys : System}
    (hfile : sys.file ≠ .torn) :
    (∀ a ∈ (c.report (sync T policy (c.call users) sys).1).accounts, a.present = true) ∧
    ∀ i, (∃ a ∈ (c.report (sync T policy (c.call users) sys).1).accounts, a.userId = i) ↔
      ∃ user ∈ users, user.userId = i := by
  have hacc := @sync_accounts T policy (c.call users) rfl ⟨rfl, rfl⟩ sys hfile
  have hrep : (c.report (sync T policy (c.call users) sys).1).accounts =
      (c.desiredOrder.visit (desired T policy (c.call users).users).toList).map
        fun r => ⟨r.userID, r.systemUser, true⟩ := by
    rw [Cycle.report, hacc, List.map_map]
    rfl
  rw [hrep]
  refine ⟨fun a ha => ?_, fun i => ?_⟩
  · obtain ⟨r, _, rfl⟩ := List.mem_map.mp ha
    rfl
  · have hwant : (∃ r ∈ desired T policy (c.call users).users, r.userID = i) ↔
        ∃ u ∈ (c.call users).users, u.userID = i := by
      rw [← find_desired T policy, Option.isSome_iff_exists]
      simp only [Table.find_eq_some]
      rfl
    calc (∃ a ∈ ((c.desiredOrder.visit (desired T policy (c.call users).users).toList).map
          fun r => (⟨r.userID, r.systemUser, true⟩ : AccountSyncIn)), a.userId = i)
      _ ↔ ∃ r ∈ desired T policy (c.call users).users, r.userID = i := by
        simp [Iteration.mem_visit]
      _ ↔ ∃ u ∈ (c.call users).users, u.userID = i := hwant
      _ ↔ ∃ user ∈ users, user.userId = i := by simp [Cycle.call]

/-- The list names the users who have access. -/
theorem accountAccess_ok {site : Authorization.Site} {users : List AccountAccessOut}
    (h : accountAccess cfg T serverId site = .ok users) (i : Int) :
    i ∈ users.map AccountAccessOut.userId ↔
      ∃ user ∈ resolveAccessUsers serverId site, (user.id : Int) = i := by
  unfold accountAccess at h
  split at h
  · cases h
  · next server hserver =>
    have hid : server.id = serverId := ((Table.find_eq_some _ _ _).mp hserver).2
    obtain rfl := Except.ok.inj h
    simp [hid, accessOut]

/-- After a cycle the present rows are the present rows before it and those of its list. -/
theorem cycle_spec {w : World} {c : Cycle} (hr : Readable w)
    (ha : Accepted cfg T policy serverId w c) :
    Readable (cycle cfg T policy serverId w c) ∧
    (∀ i, i ∈ (cycle cfg T policy serverId w c).listed ↔
      ∃ user ∈ resolveAccessUsers serverId (c.between w.site), (user.id : Int) = i) ∧
    ∀ u, Present serverId (cycle cfg T policy serverId w c).site.toDb u ↔
      Present serverId (c.between w.site).toDb u ∨
        (u : Int) ∈ (cycle cfg T policy serverId w c).listed := by
  obtain ⟨users, haccess, hok⟩ := ha
  have hcycle : cycle cfg T policy serverId w c =
      { site := (c.between w.site).over fun db =>
          (syncReport c.now serverId (c.report (sync T policy (c.call users) w.agent).1) db).2
        agent := (sync T policy (c.call users) w.agent).2.2
        listed := users.map AccountAccessOut.userId } := by
    simp only [cycle, haccess]
  have hlist := accountAccess_ok haccess
  obtain ⟨hpres, hids⟩ := @report_accounts T policy c users w.agent hr
  rw [hcycle]
  refine ⟨sync_file ⟨rfl, rfl⟩ hr, hlist, fun u => ?_⟩
  rw [Authorization.over_toDb, present_syncReport hok hpres]
  refine or_congr_right ?_
  rw [List.mem_map, ← hids]
  constructor
  · rintro ⟨a, ha, hu, _⟩
    exact ⟨a, ha, hu⟩
  · rintro ⟨a, ha, hu⟩
    obtain ⟨o, ho, hou⟩ := (hids u).mp ⟨a, ha, hu⟩
    obtain ⟨user, huser, hi⟩ := (hlist u).mp (List.mem_map.mpr ⟨o, ho, hou⟩)
    have hi : user.id = u := Int.ofNat.inj hi
    have hmem := (mem_resolveAccessUsers _ _ _).mp huser
    exact ⟨a, ha, hu, Option.isSome_iff_exists.mpr
      ⟨user, (Table.find_eq_some _ _ _).mpr ⟨hmem.1, hi⟩⟩⟩

theorem present_between {w : World} {c : Cycle} (hk : KeepsRows serverId w c) (u : UserId) :
    Present serverId (c.between w.site).toDb u ↔
      Present serverId w.site.toDb u ∧ ((c.between w.site).users.find u).isSome = true := by
  constructor
  · rintro ⟨r, hr, hs, rfl, hp⟩
    obtain ⟨hr, hu⟩ := (hk r hs).mp hr
    exact ⟨⟨r, hr, hs, rfl, hp⟩, hu⟩
  · rintro ⟨⟨r, hr, hs, rfl, hp⟩, hu⟩
    exact ⟨r, (hk r hs).mpr ⟨hr, hu⟩, hs, rfl, hp⟩

theorem faithful_step_iff {w : World} {c : Cycle} (hr : Readable w)
    (ha : Accepted cfg T policy serverId w c) (hk : KeepsRows serverId w c)
    (hw : Faithful serverId w) :
    Faithful serverId (cycle cfg T policy serverId w c) ↔ NobodyDropped serverId w c := by
  obtain ⟨_, hlist, hpres⟩ := @cycle_spec cfg T policy serverId w c hr ha
  have hlisted : ∀ u : UserId, (u : Int) ∈ (cycle cfg T policy serverId w c).listed ↔
      ∃ user ∈ resolveAccessUsers serverId (c.between w.site), user.id = u := by
    intro u
    simp only [hlist, Int.natCast_inj]
  unfold Faithful NobodyDropped
  simp only [hpres, present_between hk, hw _, hlisted, or_iff_right_iff_imp, and_imp]

/-- Over the cycles of a server, from its first on, the rows are right after each of them
if and only if no user who was in a list is missing from the next. -/
theorem faithful_iff (site : Authorization.Site) (agent : System) (hfile : agent.file ≠ .torn)
    (hnone : ∀ u, ¬ Present serverId site.toDb u) (cycles : List Cycle)
    (hE : Along (cycle cfg T policy serverId) (Undisturbed cfg T policy serverId)
      (start site agent) cycles) :
    Always (cycle cfg T policy serverId) (Faithful serverId) (start site agent) cycles ↔
      Along (cycle cfg T policy serverId) (NobodyDropped serverId) (start site agent) cycles := by
  refine always_iff_along (I := Readable) ?_ ?_ hE hfile ?_
  · exact fun w c hE h => (cycle_spec h hE.1).1
  · exact fun w c hE h hq => faithful_step_iff h hE.1 hE.2 hq
  · exact fun u => iff_of_false (hnone u) List.not_mem_nil

/-! ## A user who loses access -/

def settings : Settings := ⟨id, "{{username}}".toList, 1, 1⟩

def bob : User where
  id := 1
  username := "bob".toList
  email := []
  firstName := []
  lastName := []
  password := none
  isActive := true
  isStaff := false
  isSuperuser := false
  lastLogin := none
  groups := ∅
  userPermissions := ∅

def viewed (p : Finset UserObjectPermission) : Authorization.Site where
  users := ⟨[bob], List.nodup_singleton _⟩
  servers := ⟨[⟨1, "web".toList, none, none, none, none, none, none⟩], List.nodup_singleton _⟩
  userObjectPermissions := p

def bobViews : UserObjectPermission := ⟨1, .viewServer, 1⟩
def emptyAgent : System := ⟨{ accounts := fun _ => none, group := false }, .absent⟩
def agentPolicy : AccountPolicy := ⟨defaultTemplate, "/bin/bash".toList, true, true⟩

def bobOut : AccountAccessOut := ⟨1, "bob".toList, [], "bob".toList⟩

/-- Bob loses the permission before the second cycle. -/
def revoking : Cycle where
  between site := site.over (removePerm bobViews)

theorem undisturbed_first :
    Undisturbed settings .keep agentPolicy 1 (start (viewed {bobViews}) emptyAgent) {} := by
  refine ⟨⟨[bobOut], by decide, by decide⟩, fun r _ => ⟨fun h => ?_, fun h => h.1⟩⟩
  cases h

def afterFirst : World := cycle settings .keep agentPolicy 1 (start (viewed {bobViews}) emptyAgent) {}

theorem undisturbed_revoking : Undisturbed settings .keep agentPolicy 1 afterFirst revoking := by
  refine ⟨⟨[], by decide, by decide⟩, fun r _ => ⟨fun h => ⟨h, ?_⟩, fun h => h.1⟩⟩
  have hr : r = ⟨1, 1, "bob".toList, true, 0⟩ := by
    have hrows : afterFirst.site.serverAccounts.rows = [⟨1, 1, "bob".toList, true, 0⟩] := by decide
    have h : r ∈ afterFirst.site.serverAccounts.rows := h
    rw [hrows] at h
    exact List.mem_singleton.mp h
  rw [hr]
  decide

/-- One cycle in which Bob has access. -/
theorem faithful_after_first :
    Always (cycle settings .keep agentPolicy 1) (Faithful 1)
      (start (viewed {bobViews}) emptyAgent) [{}] :=
  (faithful_iff (viewed {bobViews}) emptyAgent (by decide) (by rintro u ⟨r, hr, _⟩; cases hr) [{}]
    ⟨undisturbed_first, trivial⟩).mpr ⟨fun u hu => absurd hu List.not_mem_nil, trivial⟩

/-- After the second his row still says that he is present. -/
theorem revoked_stays_present :
    ¬ ∀ (cfg : Settings) (T : CaseTable) (policy : AccountPolicy) (serverId : ServerId)
      (site : Authorization.Site) (agent : System) (cycles : List Cycle), agent.file ≠ .torn →
      (∀ u, ¬ Present serverId site.toDb u) →
      Along (cycle cfg T policy serverId) (Undisturbed cfg T policy serverId) (start site agent)
        cycles →
      Always (cycle cfg T policy serverId) (Faithful serverId) (start site agent) cycles := by
  intro h
  have hall := h settings .keep agentPolicy 1 (viewed {bobViews}) emptyAgent [{}, revoking] (by decide)
    (by rintro u ⟨r, hr, _⟩; cases hr) ⟨undisturbed_first, undisturbed_revoking, trivial⟩
  have hlast := always_last hall 1
  have hrow : (⟨1, 1, "bob".toList, true, 0⟩ : ServerAccount) ∈
      (run (cycle settings .keep agentPolicy 1) (start (viewed {bobViews}) emptyAgent)
        [{}, revoking]).site.serverAccounts := by decide
  have hlisted := hlast.mp ⟨_, hrow, rfl, rfl, rfl⟩
  exact absurd hlisted (by decide)

end Keywarden.AccountReports
