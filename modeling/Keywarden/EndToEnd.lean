import Keywarden.AccountNames
import Keywarden.AccountReports
import Keywarden.AgentRename
import Keywarden.Ownership

/-!
# From the request to the account

The server and the agent of one of its hosts together. Between two synchronisations the
server takes requests, decides and sweeps them, and creates, changes and erases users. A
synchronisation that goes through leaves enabled, among the accounts that the agent ever
made, those of the users whose requests let them in at that time.
-/
namespace Keywarden.EndToEnd

open Rows Transitions Keys Authorization AgentSync Username Grants AccountNames Users
open AgentHost hiding Site
open AccountReports (accountAccess accessOut AccountAccessOut)
open AgentRename (Exact DropsByID Faultless)

/-! ## The system -/

/-- One call of `SyncAccounts`: whether the list of users is reached, what happens to the
calls of `Sync`, and when the report arrives. -/
structure Turn where
  reached : Bool := true
  faults : Faults := noFaults
  currentOrder : Iteration := .listed
  desiredOrder : Iteration := .listed
  readable : Bool := true
  save : SaveOutcome := .ok
  reported : Option (Instant × Bool) := none

def Turn.call (c : Turn) (users : List AccountAccessOut) : SyncCall where
  users := users.map fun user => ⟨user.userId, user.username, user.systemUsername⟩
  faults := c.faults
  currentOrder := c.currentOrder
  desiredOrder := c.desiredOrder
  readable := c.readable
  save := c.save

def report (telemetryStored : Bool) (result : Result) : ServerAccounts.SyncReportIn where
  accounts := result.accounts.map fun account =>
    ⟨account.userID, account.systemUser, account.present⟩
  telemetryStored := telemetryStored

inductive Event where
  | server : ErasureRun.Event → Event
  | createUser : CreateEnv → Caller → Bool → UserCreateIn → Event
  | updateUser : UserEnv → Caller → Bool → Int → UserUpdateIn → Event
  | ensureAdmin : CreateEnv → (String → Option (List Char)) → Event
  | syncAccounts : Turn → Event

structure World where
  server : Watch
  agent : AgentSync.World

/-- A call that writes users. -/
def World.over (w : World) (f : Db → Db) : World :=
  { w with server := { w.server with site := w.server.site.over f } }

variable (cfg : Settings) (T : CaseTable) (policy : AccountPolicy) (serverId : ServerId)

def syncAccounts (w : World) (c : Turn) : World :=
  if !c.reached then w
  else match accountAccess cfg T serverId w.server.site with
    | .error _ => w
    | .ok users =>
      let result := (sync T policy (c.call users) w.agent.system).1
      { server :=
          match c.reported with
          | none => w.server
          | some (now, stored) => watch w.server (.syncReport now serverId (report stored result))
        agent := AgentSync.step T policy w.agent (c.call users) }

def step (w : World) : Event → World
  | .server e => { w with server := watch w.server e }
  | .createUser env caller mayAdd payload => w.over fun db => (createUser env caller mayAdd payload db).2
  | .updateUser env caller mayChange userId payload =>
    w.over fun db => (updateUser env caller mayChange userId payload db).2
  | .ensureAdmin env environ => w.over fun db => (ensureAdmin env environ db).2
  | .syncAccounts c => syncAccounts cfg T policy serverId w c

def start (site : Site) (t : Instant) (host : Host) : World := ⟨⟨site, t, t⟩, AgentSync.start host⟩

/-- The account is one that the agent manages now. -/
def Managed (w : World) (userId : Int) : Prop :=
  ∃ r ∈ w.agent.system.file.users, r.userID = userId

/-- The clock goes on, no command of a synchronisation fails, and a user with an account
is neither renamed nor activated again. -/
def Orderly (w : World) : Event → Prop
  | .server e => Timely w.server e
  | .updateUser _ _ _ userId payload =>
    Managed w userId → payload.email = none ∧ payload.isActive ≠ some true
  | .syncAccounts c => c.reached = true → Faultless (c.call []) ∧
    ∀ now stored, c.reported = some (now, stored) → w.server.now ≤ now
  | _ => True

/-- The user as the agent is told. -/
def told (user : User) : AccessUser := ⟨user.id, user.username, Shell.rendered cfg T user⟩

/-- The name of the user's account. -/
@[irreducible] def accountName (user : User) : Name := (managed T policy (told cfg T user)).systemUser

/-! ## What holds all along -/

structure Steady (w : World) : Prop where
  current : Current w.server
  groups : ∀ p ∈ w.server.site.groupObjectPermissions, p.permission ≠ .viewServer
  agent : AgentRename.Invariant T policy w.agent
  exact : Exact T policy w.agent
  named : ∀ r ∈ w.agent.system.file.users, ∃ user ∈ w.server.site.users, (user.id : Int) = r.userID ∧
    (user.isActive = true → accountName cfg T policy user = r.systemUser)

variable {cfg T policy serverId}

theorem accountName_congr {user user' : User} (hid : user'.id = user.id)
    (hname : user'.username = user.username) :
    accountName cfg T policy user' = accountName cfg T policy user := by
  unfold accountName told Shell.rendered
  rw [hid, hname]

/-- The users of the accounts that the agent manages. -/
def ManagedUser (w : World) (u : UserId) : Prop := Managed w u

theorem named_of_keeps {w : World} {users : Table User} (h : Steady cfg T policy w)
    (hkeeps : Keeps (ManagedUser w) w.server.site.users users) :
    ∀ r ∈ w.agent.system.file.users, ∃ user ∈ users, (user.id : Int) = r.userID ∧
      (user.isActive = true → accountName cfg T policy user = r.systemUser) := by
  intro r hr
  obtain ⟨user, hm, hid, hname⟩ := h.named r hr
  obtain ⟨user', hm', hid', hkept⟩ := hkeeps user hm ⟨r, hr, hid.symm⟩
  refine ⟨user', hm', by rw [hid', hid], fun hact => ?_⟩
  obtain ⟨hact', husername⟩ := hkept hact
  rw [accountName_congr hid' husername, hname hact']

/-- Nobody who is created yet has an account. -/
theorem not_managed_fresh {w : World} (h : Steady cfg T policy w) :
    ¬ ManagedUser w w.server.site.users.fresh := by
  rintro ⟨r, hr, hid⟩
  obtain ⟨user, hm, hu, _⟩ := h.named r hr
  have hlt : user.id < w.server.site.users.fresh := Table.key_lt_fresh _ hm
  have heq : user.id = w.server.site.users.fresh := Int.ofNat.inj (hu.trans hid)
  exact absurd heq hlt.ne

theorem watch_steady {w : World} {e : ErasureRun.Event} (h : Steady cfg T policy w)
    (ht : Timely w.server e) : Steady cfg T policy { w with server := watch w.server e } where
  current := watch_current h.current ht
  groups := by
    intro p hp
    exact h.groups p (Ownership.step_groups w.server.site e ▸ hp)
  agent := h.agent
  exact := h.exact
  named := named_of_keeps (w := w) h (step_keeps w.server.site e)

theorem over_steady {w : World} {f : Db → Db} (h : Steady cfg T policy w)
    (hf : KeepsNames (ManagedUser w) w.server.site.toDb (f w.server.site.toDb)) :
    Steady cfg T policy (w.over f) := by
  obtain ⟨⟨t, ht⟩, hkeeps⟩ := hf
  refine ⟨?_, h.groups, h.agent, h.exact, ?_⟩
  · refine current_of_settles h.current le_rfl (over_toDb f w.server.site) ?_
    rw [ht]
    exact settles_of_eq rfl rfl
  · exact named_of_keeps (w := w) h hkeeps

/-! ## A synchronisation -/

theorem call_users {site : Site} {users : List AccountAccessOut}
    (h : accountAccess cfg T serverId site = .ok users) (c : Turn) :
    (c.call users).users = (resolveAccessUsers serverId site).map (told cfg T) := by
  unfold accountAccess at h
  split at h
  · cases h
  · next server hserver =>
    have hid : server.id = serverId := ((Table.find_eq_some _ _ _).mp hserver).2
    cases h
    rw [hid, Turn.call, List.map_map]
    rfl

theorem managed_told (user : User) : managed T policy (told cfg T user) =
    ⟨user.id, accountName cfg T policy user⟩ := by
  unfold accountName
  rfl

/-- What the agent wants are the accounts of the users in the list. -/
theorem mem_desired_told {site : Site} {users : List User} (hsub : ∀ user ∈ users, user ∈ site.users)
    {q : ManagedAccount} :
    q ∈ desired T policy (users.map (told cfg T)) ↔
      ∃ user ∈ users, q = ⟨user.id, accountName cfg T policy user⟩ := by
  constructor
  · intro hq
    obtain ⟨_, hu, rfl⟩ := mem_desired hq
    obtain ⟨user, hm, rfl⟩ := List.mem_map.mp hu
    exact ⟨user, hm, managed_told user⟩
  · rintro ⟨user, hm, rfl⟩
    have hsome : ((desired T policy (users.map (told cfg T))).find (user.id : Int)).isSome = true :=
      (find_desired _ _ _ _).mpr ⟨told cfg T user, List.mem_map_of_mem hm, rfl⟩
    obtain ⟨q, hq⟩ := Option.isSome_iff_exists.mp hsome
    obtain ⟨hq, hid⟩ := (Table.find_eq_some _ _ _).mp hq
    obtain ⟨_, hu, rfl⟩ := mem_desired hq
    obtain ⟨other, hother, rfl⟩ := List.mem_map.mp hu
    have hsame : other = user :=
      Table.eq_of_key _ (hsub other hother) (hsub user hm) (Int.ofNat.inj hid)
    rwa [hsame, managed_told] at hq

theorem resolved_mem {site : Site} {user : User} (h : user ∈ resolveAccessUsers serverId site) :
    user ∈ site.users := ((mem_resolveAccessUsers _ _ _).mp h).1

theorem faultless_call {c : Turn} (h : Faultless (c.call [])) (users : List AccountAccessOut) :
    Faultless (c.call users) := h

/-- An account leaves the list only together with its user. -/
theorem dropsByID_call {w : World} {c : Turn} {users : List AccountAccessOut}
    (h : Steady cfg T policy w) (hok : accountAccess cfg T serverId w.server.site = .ok users) :
    DropsByID T policy w.agent (c.call users) := by
  intro r hr hunwanted
  refine ⟨r, hr, rfl, fun u hu hid => hunwanted ?_⟩
  rw [call_users hok] at hu ⊢
  obtain ⟨user, hm, rfl⟩ := List.mem_map.mp hu
  obtain ⟨other, hother, hotherId, hname⟩ := h.named r hr
  have hsame : other = user :=
    Table.eq_of_key _ hother (resolved_mem hm) (Int.ofNat.inj (hotherId.trans hid.symm))
  subst hsame
  have hact := ((mem_resolveAccessUsers _ _ _).mp hm).2.2
  exact ⟨_, (mem_desired_told fun _ => resolved_mem).mpr ⟨other, hm, rfl⟩, hname hact⟩

theorem sync_steady (hp : policy.lockOnRevoke = true) {w : World} {c : Turn}
    {users : List AccountAccessOut} (h : Steady cfg T policy w) (hf : Faultless (c.call users))
    (hok : accountAccess cfg T serverId w.server.site = .ok users) :
    Steady cfg T policy { w with agent := AgentSync.step T policy w.agent (c.call users) } where
  current := h.current
  groups := h.groups
  agent := AgentRename.step_invariant hp hf h.agent
  exact := (AgentRename.exact_step_iff hp hf h.agent h.exact).mpr (dropsByID_call h hok)
  named := by
    intro r hr
    have hc := step_consistent hp hf.2 h.agent.consistent
    have hr' : r ∈ desired T policy (c.call users).users := (hc.recorded r).mp hr
    rw [call_users hok, mem_desired_told fun _ => resolved_mem] at hr'
    obtain ⟨user, hm, rfl⟩ := hr'
    exact ⟨user, resolved_mem hm, rfl, fun _ => rfl⟩

theorem syncAccounts_steady (hp : policy.lockOnRevoke = true) {w : World} {c : Turn}
    (h : Steady cfg T policy w) (ho : Orderly w (.syncAccounts c)) :
    Steady cfg T policy (syncAccounts cfg T policy serverId w c) := by
  unfold syncAccounts
  split
  · exact h
  · next hreached =>
    obtain ⟨hf, htime⟩ := ho (by simpa using hreached)
    split
    · exact h
    · next users hok =>
      have hs := sync_steady hp h (faultless_call hf users) hok
      cases hreported : c.reported with
      | none => exact hs
      | some at_ =>
        obtain ⟨now, stored⟩ := at_
        exact watch_steady hs (htime now stored hreported)

theorem step_steady (hp : policy.lockOnRevoke = true) {w : World} {e : Event}
    (h : Steady cfg T policy w) (ho : Orderly w e) :
    Steady cfg T policy (step cfg T policy serverId w e) := by
  cases e with
  | server e => exact watch_steady h ho
  | createUser env caller mayAdd payload =>
    exact over_steady h (createUser_keepsNames (not_managed_fresh h))
  | updateUser env caller mayChange userId payload =>
    exact over_steady h (updateUser_keepsNames fun user _ hid hmanaged => ho (hid ▸ hmanaged))
  | ensureAdmin env environ => exact over_steady h (ensureAdmin_keepsNames (not_managed_fresh h))
  | syncAccounts c => exact syncAccounts_steady hp h ho

/-! ## Runs -/

theorem start_steady {site : Site} (hblank : Blank site)
    (hgroups : ∀ p ∈ site.groupObjectPermissions, p.permission ≠ .viewServer) (t : Instant)
    (host : Host) : Steady cfg T policy (start site t host) where
  current := hblank.current t
  groups := hgroups
  agent := ⟨start_consistent T policy host, by simp [start, AgentSync.start, StateFile.users]⟩
  exact := by simp [Exact, start, AgentSync.start]
  named := by simp [start, AgentSync.start, StateFile.users]

/-- While no list of users is reached, the host is left alone. -/
theorem run_agent {w : World} {events : List Event}
    (h : ∀ c, Event.syncAccounts c ∈ events → c.reached = false) :
    (run (step cfg T policy serverId) w events).agent = w.agent := by
  induction events generalizing w with
  | nil => rfl
  | cons e events ih =>
    rw [run_cons, ih fun c hc => h c (List.mem_cons_of_mem e hc)]
    cases e with
    | syncAccounts c => simp [step, syncAccounts, h c List.mem_cons_self]
    | _ => rfl

theorem granted_iff {site : Site} (hgroups : ∀ p ∈ site.groupObjectPermissions,
    p.permission ≠ .viewServer) (user : User) :
    granted user .viewServer serverId site = true ↔ (user.id, serverId) ∈ AccessRun.held site.toDb := by
  have hgroup : ¬ ∃ g ∈ user.groups,
      (⟨g, .viewServer, serverId⟩ : GroupObjectPermission) ∈ site.groupObjectPermissions := by
    rintro ⟨g, _, hg⟩
    exact hgroups _ hg rfl
  rw [granted, decide_eq_false hgroup, Bool.or_false, decide_eq_true_eq]
  exact Iff.rfl

/-- After a synchronisation, and until the next, whoever was active and had an approved
request for the server that had not run out can use their account; and an account that
the agent ever made can be used only if it is that of an active user with an approved
request that had not run out at the last sweep. -/
theorem access_enforced (hp : policy.lockOnRevoke = true) {site : Site} (hblank : Blank site)
    (hgroups : ∀ p ∈ site.groupObjectPermissions, p.permission ≠ .viewServer) (t : Instant)
    (host : Host) {before later : List Event} {c : Turn} (hreached : c.reached = true)
    (hserver : ((run (step cfg T policy serverId) (start site t host) before).server.site.servers.find
      serverId).isSome = true)
    (hlater : ∀ c', Event.syncAccounts c' ∈ later → c'.reached = false)
    (hrun : Along (step cfg T policy serverId) Orderly (start site t host)
      (before ++ .syncAccounts c :: later)) :
    let w := run (step cfg T policy serverId) (start site t host) before
    let agent := (run (step cfg T policy serverId) (start site t host)
      (before ++ .syncAccounts c :: later)).agent
    (∀ user ∈ w.server.site.users, user.isActive = true →
      (user.id, serverId) ∈ AccessRun.entitled w.server.now w.server.site.toDb →
        Enabled agent.system.host (accountName cfg T policy user)) ∧
    ∀ o ∈ agent.provisioned, Enabled agent.system.host o.systemUser →
      ∃ user ∈ w.server.site.users, user.isActive = true ∧
        accountName cfg T policy user = o.systemUser ∧
        (user.id, serverId) ∈ AccessRun.entitled w.server.swept w.server.site.toDb := by
  intro w agent
  obtain ⟨hbefore, horderly, _⟩ := along_append.mp hrun
  have hw : Steady cfg T policy w := run_invariant (fun _ _ h ho => step_steady hp h ho)
    (start_steady hblank hgroups t host) hbefore
  obtain ⟨server, hfind⟩ := Option.isSome_iff_exists.mp hserver
  obtain ⟨users, hok⟩ : ∃ users, accountAccess cfg T serverId w.server.site = .ok users := by
    unfold accountAccess
    rw [hfind]
    exact ⟨_, rfl⟩
  have hf : Faultless (c.call users) := faultless_call (horderly hreached).1 users
  have hagent : agent = AgentSync.step T policy w.agent (c.call users) := by
    have hrest := @run_agent cfg T policy serverId
      (step cfg T policy serverId w (.syncAccounts c)) later hlater
    rw [← run_cons, ← run_append] at hrest
    rw [show agent = _ from hrest]
    simp [step, syncAccounts, hreached, hok]
  have hsync := sync_steady hp hw hf hok
  have hlist : ∀ user, user ∈ resolveAccessUsers serverId w.server.site ↔
      user ∈ w.server.site.users ∧ (user.id, serverId) ∈ AccessRun.held w.server.site.toDb ∧
        user.isActive = true := fun user => by
    rw [mem_resolveAccessUsers, granted_iff hw.groups]
  rw [hagent]
  constructor
  · intro user hm hact hentitled
    have hresolved := (hlist user).mpr ⟨hm, hw.current.lags.entitled_held hentitled, hact⟩
    have hwant : (⟨user.id, accountName cfg T policy user⟩ : ManagedAccount) ∈
        desired T policy (c.call users).users := by
      rw [call_users hok]
      exact (mem_desired_told fun _ => resolved_mem).mpr ⟨user, hresolved, rfl⟩
    exact (sync_noFaults T policy hf.1 hf.2 hw.agent.consistent.file_ne _ hwant).1
  · intro o ho hen
    obtain ⟨q, hq, hname⟩ := (hsync.exact o ho).mp hen
    have hq' : q ∈ desired T policy (c.call users).users := hq
    rw [call_users hok, mem_desired_told fun _ => resolved_mem] at hq'
    obtain ⟨user, hresolved, rfl⟩ := hq'
    obtain ⟨hm, hheld, hact⟩ := (hlist user).mp hresolved
    exact ⟨user, hm, hact, hname, hw.current.lags.held_entitled hheld⟩

/-! ## A request that is approved -/

def approval : List Event := Grants.approval.map .server

def first : Turn := { reported := some (1002, true) }

def unreached : Turn := { reached := false }

def approved : World :=
  run (step AccessRun.utc .keep AgentRename.renamePolicy 1) (start oneServer 0 AgentRename.emptyHost)
    approval

theorem alice_can_log_in : Enabled (run (step AccessRun.utc .keep AgentRename.renamePolicy 1)
      (start oneServer 0 AgentRename.emptyHost)
      (approval ++ .syncAccounts first :: [.syncAccounts unreached])).agent.system.host
    (accountName AccessRun.utc .keep AgentRename.renamePolicy alice) := by
  have hentitled : (alice.id, 1) ∈ AccessRun.entitled approved.server.now approved.server.site.toDb :=
    (AccessRun.hasValidAccess_entitled _ _ _ _).mp (by decide)
  have hreport : ∀ now stored, first.reported = some (now, stored) → approved.server.now ≤ now := by
    intro now stored h
    cases h
    decide
  have hlater : ∀ c, Event.syncAccounts c ∈ [Event.syncAccounts unreached] → c.reached = false := by
    intro c hc
    cases List.mem_singleton.mp hc
    rfl
  have hrun : Along (step AccessRun.utc .keep AgentRename.renamePolicy 1) Orderly
      (start oneServer 0 AgentRename.emptyHost)
      (approval ++ .syncAccounts first :: [.syncAccounts unreached]) := by
    refine ⟨?_, ?_, fun _ => ⟨⟨rfl, rfl, rfl⟩, hreport⟩, fun h => ?_, trivial⟩
    · exact Int.le_of_lt (by decide)
    · exact Int.le_of_lt (by decide)
    · cases h
  exact (access_enforced rfl oneServer_blank (by simp [oneServer, Ownership.household]) 0
    AgentRename.emptyHost rfl (by decide) hlater hrun).1 alice (by decide) rfl hentitled

end Keywarden.EndToEnd
