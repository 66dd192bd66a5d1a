import Keywarden.AgentRevocation

/-!
# Synchronisations that are killed

A synchronisation whose commands do not fail, step by step: the process can be
killed before any of the steps, and what the steps before it did to the host and to
the state file stays. The state file is overwritten in place, so it is truncated
for a moment, and accounts are created before they are written to it.
-/
namespace Keywarden.AgentCrash

open Rows Transitions AgentHost AgentSync AgentRevocation Username

/-- A change of one account by a command or a write below its home directory. -/
inductive Change where
  | joinGroup | lock | setShell | clearExpiry | expire | sshDir | authorizedKeys
  deriving DecidableEq, Repr

def Change.apply (policy : AccountPolicy) : Change → Account → Account
  | .joinGroup, a => { a with inGroup := true }
  | .lock, a => { a with locked := true }
  | .setShell, a => if policy.defaultShell ≠ [] then { a with shell := policy.defaultShell } else a
  | .clearExpiry, a => { a with expired := false }
  | .expire, a => { a with expired := true }
  | .sshDir, a => if a.home ≠ [] then { a with homeExists := true } else a
  | .authorizedKeys, a => a

/-- The home directory whose file of authorized keys the change empties. -/
def Change.empties : Change → Account → Option (List Char)
  | .authorizedKeys, a => if a.home ≠ [] then some a.home else none
  | _, _ => none

def Change.on (policy : AccountPolicy) (c : Change) (x : Name) (h : Host) : Host :=
  (h.adjust x (c.apply policy)).emptyKeys ((h.accounts x).bind c.empties)

/-- What happens at once: the process is killed between two of these or not at all.
`useradd` does nothing if the account is there, `truncate` and `write` are the two
halves of `os.WriteFile` on the state file. -/
inductive Step where
  | groupadd
  | useradd (r : ManagedAccount)
  | change (c : Change) (r : ManagedAccount)
  | truncate
  | write (users : List ManagedAccount)
  deriving DecidableEq, Repr

/-- What outlives the process, with every account a run has created or given back
its expiry, and those among them that no state file has recorded since. -/
structure Machine where
  system : System
  provisioned : List ManagedAccount
  orphans : List ManagedAccount

def Machine.onHost (m : Machine) (g : Host → Host) : Machine :=
  { m with system := { m.system with host := g m.system.host } }

def Machine.provision (m : Machine) (r : ManagedAccount) : Machine where
  system := m.system
  provisioned := m.provisioned ++ [r]
  orphans := if r ∈ m.system.file.users then m.orphans else m.orphans ++ [r]

def exec (policy : AccountPolicy) (m : Machine) : Step → Machine
  | .groupadd => m.onHost fun h => { h with group := true }
  | .useradd r =>
    if m.system.host.group ∧ m.system.host.accounts r.systemUser = none then
      (m.onHost fun h => (createUser noFaults policy (provisionSite r) h).2).provision r
    else m
  | .change c r =>
    let m' := m.onHost (c.on policy r.systemUser)
    if c = .clearExpiry ∧ (m.system.host.accounts r.systemUser).isSome then m'.provision r else m'
  | .truncate => { m with system := ⟨m.system.host, .torn⟩ }
  | .write users => { m with
      system := ⟨m.system.host, .saved users⟩
      orphans := m.orphans.filter fun o => o ∉ users }

def revokeChanges (policy : AccountPolicy) : List Change :=
  (if policy.lockOnRevoke then [.lock, .expire] else []) ++ [.sshDir, .authorizedKeys]

/-- The first loop on one account of the state file. -/
def revokeSteps (policy : AccountPolicy) (want : Table ManagedAccount) (r : ManagedAccount) :
    List Step :=
  if (want.find r.userID).isSome then [] else (revokeChanges policy).map (.change · r)

def provisionChanges : List Change :=
  [.joinGroup, .lock, .setShell, .clearExpiry, .sshDir, .authorizedKeys]

/-- The second loop on one wanted account. -/
def provisionSteps (r : ManagedAccount) : List Step :=
  .useradd r :: provisionChanges.map (.change · r)

def loopSteps (T : CaseTable) (policy : AccountPolicy) (call : SyncCall)
    (current : List ManagedAccount) : List Step :=
  .groupadd ::
    ((call.currentOrder.visit current).flatMap (revokeSteps policy (desired T policy call.users)) ++
      (call.desiredOrder.visit (desired T policy call.users).toList).flatMap provisionSteps)

def saveSteps (T : CaseTable) (policy : AccountPolicy) (call : SyncCall) : List Step :=
  [.truncate, .write (desired T policy call.users).toList]

/-- `Sync`: a state file that does not load ends it before its first step. -/
def steps (T : CaseTable) (policy : AccountPolicy) (call : SyncCall) (file : StateFile) :
    List Step :=
  match loadState true file with
  | .error _ => []
  | .ok current => loopSteps T policy call current ++ saveSteps T policy call

/-- A call of `Sync`, and after how many steps it is killed, if it is. -/
structure Attempt where
  users : List AccessUser
  currentOrder : Iteration := .listed
  desiredOrder : Iteration := .listed
  killed : Option Nat := none

def Attempt.call (a : Attempt) : SyncCall where
  users := a.users
  currentOrder := a.currentOrder
  desiredOrder := a.desiredOrder

def attempt (T : CaseTable) (policy : AccountPolicy) (m : Machine) (a : Attempt) : Machine :=
  run (exec policy) m (cut a.killed (steps T policy a.call m.system.file))

def unsynced (host : Host) : Machine := ⟨⟨host, .absent⟩, [], []⟩

/-- The call loads the state file and disables every account provisioned so far for a
user who is not in its list. -/
def Recovers (T : CaseTable) (policy : AccountPolicy) (m : Machine) (call : SyncCall) : Prop :=
  (∃ current, loadState true m.system.file = .ok current) ∧
  ∀ o ∈ m.provisioned, (∀ u ∈ call.users, u.userID ≠ o.userID) →
    Disabled (sync T policy call m.system).2.2.host o.systemUser

/-- No run was killed while it wrote the state file, and each account that a killed
run left unrecorded is one of a user of the list. -/
def NothingLost (m : Machine) (call : SyncCall) : Prop :=
  m.system.file ≠ .torn ∧ ∀ o ∈ m.orphans, ∃ u ∈ call.users, u.userID = o.userID

variable {T : CaseTable} {policy : AccountPolicy}

/-! ## The steps of a synchronisation that is not killed -/

@[simp] theorem onHost_system (m : Machine) (g : Host → Host) :
    (m.onHost g).system = ⟨g m.system.host, m.system.file⟩ := rfl

@[simp] theorem provision_system (m : Machine) (r : ManagedAccount) :
    (m.provision r).system = m.system := rfl

theorem mem_orphans_provision (m : Machine) (r o : ManagedAccount) :
    o ∈ (m.provision r).orphans ↔ o ∈ m.orphans ∨ (o = r ∧ r ∉ m.system.file.users) := by
  by_cases hm : r ∈ m.system.file.users <;> simp [Machine.provision, hm]

theorem on_accounts (c : Change) (x y : Name) (h : Host) : (c.on policy x h).accounts y =
    if y = x then (h.accounts y).map (c.apply policy) else h.accounts y := by
  rw [Change.on, emptyKeys_accounts, adjust_accounts]

theorem exec_change_system (m : Machine) (c : Change) (r : ManagedAccount) :
    (exec policy m (.change c r)).system =
      ⟨c.on policy r.systemUser m.system.host, m.system.file⟩ := by
  simp only [exec]
  split <;> rfl

def applyAll (policy : AccountPolicy) (cs : List Change) (a : Account) : Account :=
  cs.foldl (fun a c => c.apply policy a) a

def emptiesAll (cs : List Change) (a : Account) : Option (List Char) :=
  if .authorizedKeys ∈ cs then Change.authorizedKeys.empties a else none

theorem apply_home (c : Change) (a : Account) : (c.apply policy a).home = a.home := by
  cases c with
  | setShell | sshDir =>
    simp only [Change.apply]
    split <;> rfl
  | _ => rfl

theorem empties_congr {a b : Account} (hh : a.home = b.home) (c : Change) : c.empties a = c.empties b := by
  cases c <;> simp only [Change.empties, hh]

/-- The changes adjust the account one after the other, and empty one file at most. -/
theorem changes_on (cs : List Change) (x : Name) (h : Host) :
    cs.foldl (fun h c => c.on policy x h) h =
      (h.adjust x (applyAll policy cs)).emptyKeys ((h.accounts x).bind (emptiesAll cs)) := by
  induction cs generalizing h with
  | nil =>
    have hnone : (h.accounts x).bind (emptiesAll []) = none := by cases h.accounts x <;> rfl
    rw [hnone]
    exact (adjust_fixed h x fun _ _ => rfl).symm
  | cons c cs ih =>
    rw [List.foldl_cons, ih, on_accounts, if_pos rfl, Change.on, adjust_emptyKeys, adjust_adjust]
    cases ha : h.accounts x with
    | none => rfl
    | some a =>
      have hlater : emptiesAll cs (c.apply policy a) = emptiesAll cs a := by
        simp only [emptiesAll, empties_congr (apply_home c a)]
      simp only [Option.map_some, Option.bind_some, hlater]
      by_cases hc : c = .authorizedKeys
      · subst hc
        by_cases hcs : Change.authorizedKeys ∈ cs
        · simp only [emptiesAll, List.mem_cons, hcs, or_true, if_true, emptyKeys_again]
          rfl
        · simp only [emptiesAll, List.mem_cons, hcs, true_or, if_true, if_false]
          rfl
      · have hnow : c.empties a = none := by
          cases c with
          | authorizedKeys => exact absurd rfl hc
          | _ => rfl
        have hmem : Change.authorizedKeys ∈ c :: cs ↔ Change.authorizedKeys ∈ cs := by
          simp [Ne.symm hc]
        simp only [hnow, emptiesAll, hmem]
        rfl

theorem run_changes (m : Machine) (cs : List Change) (r : ManagedAccount) :
    (run (exec policy) m (cs.map (.change · r))).system =
      ⟨cs.foldl (fun h c => c.on policy r.systemUser h) m.system.host, m.system.file⟩ := by
  induction cs generalizing m with
  | nil => rfl
  | cons c cs ih => rw [List.map_cons, run_cons, ih, exec_change_system, List.foldl_cons]

theorem revoked_eq (s : Site) (a : Account) :
    revoked noFaults policy s a = applyAll policy (revokeChanges policy) a := by
  cases hl : policy.lockOnRevoke <;> by_cases hh : a.home = [] <;>
    simp [revoked, noFaults, disabled, keysCleared, Clears, applyAll, revokeChanges, Change.apply, hl, hh]

theorem revokedHome_eq (s : Site) :
    revokedHome noFaults s = emptiesAll (revokeChanges policy) := by
  funext a
  simp [revokedHome, clearedHome, Clears, noFaults, emptiesAll, revokeChanges, Change.empties]

theorem run_revokeSteps (want : Table ManagedAccount) (m : Machine) (p : Progress)
    (hp : p.host = m.system.host) (r : ManagedAccount) :
    (run (exec policy) m (revokeSteps policy want r)).system =
      ⟨(revokeOne noFaults policy want p r).host, m.system.file⟩ := by
  unfold revokeSteps revokeOne
  split
  · rw [hp]
    rfl
  · change _ = (⟨(revokeUser noFaults policy (revokeSite r) p.host).2, m.system.file⟩ : System)
    rw [run_changes, changes_on, revokeUser_host, hp, @revokedHome_eq policy]
    congr 2
    exact adjust_congr _ _ fun a _ => (revoked_eq _ a).symm

theorem keysCleared_configured (s : Site) {g : Account → Account} (hg : ∀ a, (g a).home = a.home)
    (hchanges : ∀ a, keysCleared noFaults s (g a) = applyAll policy provisionChanges a) (h : Host) :
    ((h.adjust s.account fun a => keysCleared noFaults s (g a)).emptyKeys
      (((h.adjust s.account g).accounts s.account).bind (clearedHome noFaults s))) =
    provisionChanges.foldl (fun h c => c.on policy s.account h) h := by
  rw [changes_on, adjust_congr _ _ fun a _ => hchanges a, adjust_accounts, if_pos rfl]
  cases h.accounts s.account with
  | none => rfl
  | some a =>
    rw [Option.map_some, Option.bind_some, Option.bind_some, clearedHome_congr noFaults s (hg a)]
    simp [clearedHome, Clears, noFaults, emptiesAll, provisionChanges, Change.empties]

theorem configureAccount_eq (s : Site) {h : Host} (hg : h.group = true)
    (hx : (h.accounts s.account).isSome = true) :
    (configureAccount noFaults policy s h).2 =
      provisionChanges.foldl (fun h c => c.on policy s.account h) h := by
  have hjoin := onAccount_noFaults s .joinGroup "usermod add"
    (fun a => { a with inGroup := true }) hx
  by_cases hshell : policy.defaultShell = []
  · simp only [configureAccount, Proc.andThen, ensureGroupMembership, hg, if_true, hjoin,
      enforceCertificateOnly, lock, isSome_adjust, hx, onAccount_noFaults, setShell, hshell, ne_eq,
      not_true_eq_false, if_false, clearExpiry, writeAuthorizedKeys_host, adjust_adjust]
    refine keysCleared_configured s (g := fun a => { a with inGroup := true, locked := true, expired := false })
      (fun a => rfl) (fun a => ?_) h
    by_cases hh : a.home = [] <;>
      simp [keysCleared, Clears, noFaults, hh, applyAll, provisionChanges, Change.apply, hshell]
  · simp only [configureAccount, Proc.andThen, ensureGroupMembership, hg, if_true, hjoin,
      enforceCertificateOnly, lock, isSome_adjust, hx, onAccount_noFaults, setShell, hshell, ne_eq,
      not_false_eq_true, clearExpiry, writeAuthorizedKeys_host, adjust_adjust]
    refine keysCleared_configured s (g := fun a => { a with
      inGroup := true, locked := true, shell := policy.defaultShell, expired := false })
      (fun a => rfl) (fun a => ?_) h
    by_cases hh : a.home = [] <;>
      simp [keysCleared, Clears, noFaults, hh, applyAll, provisionChanges, Change.apply, hshell]

theorem exec_useradd_system (m : Machine) (r : ManagedAccount) :
    (exec policy m (.useradd r)).system =
      ⟨if m.system.host.group ∧ m.system.host.accounts r.systemUser = none then
        (createUser noFaults policy (provisionSite r) m.system.host).2 else m.system.host,
        m.system.file⟩ := by
  simp only [exec]
  split <;> rfl

theorem run_provisionSteps (m : Machine) (p : Progress) (hp : p.host = m.system.host)
    (hg : p.host.group = true) (r : ManagedAccount) :
    (run (exec policy) m (provisionSteps r)).system =
      ⟨(provisionOne noFaults policy p r).host, m.system.file⟩ := by
  change _ = (⟨(ensureAccount noFaults policy (provisionSite r) p.host).2.2, m.system.file⟩ : System)
  have hid : userExists noFaults (provisionSite r) p.host =
    .ok (p.host.accounts r.systemUser).isSome := rfl
  rw [provisionSteps, run_cons, run_changes, exec_useradd_system, ← hp]
  unfold ensureAccount
  rw [hid]
  cases hx : p.host.accounts r.systemUser with
  | some b =>
    have hx' : (p.host.accounts (provisionSite r).account).isSome = true :=
      Option.isSome_iff_exists.mpr ⟨b, hx⟩
    simp only [Option.isSome_some, if_true, reduceCtorEq, and_false, if_false]
    rw [configureAccount_eq (provisionSite r) hg hx']
    rfl
  | none =>
    let h₁ : Host := { p.host with
      accounts := fun y => if y = r.systemUser then some (newAccount policy y) else p.host.accounts y }
    have hc : createUser noFaults policy (provisionSite r) p.host = (none, h₁) := if_pos ⟨rfl, hx, hg⟩
    simp only [Option.isSome_none, Bool.false_eq_true, if_false, hc, hg, and_self, if_true]
    rw [@configureAccount_eq policy (provisionSite r) h₁ hg (by simp [h₁, provisionSite])]
    rfl

theorem run_revokeLoop (want : Table ManagedAccount) (l : List ManagedAccount) (m : Machine)
    (p : Progress) (hp : p.host = m.system.host) :
    (run (exec policy) m (l.flatMap (revokeSteps policy want))).system =
      ⟨(l.foldl (revokeOne noFaults policy want) p).host, m.system.file⟩ := by
  induction l generalizing m p with
  | nil => rw [List.foldl_nil, hp]; rfl
  | cons r l ih =>
    have hone := @run_revokeSteps policy want m p hp r
    rw [List.flatMap_cons, run_append, List.foldl_cons, ih _ (revokeOne noFaults policy want p r)
      (by rw [hone]), hone]

theorem run_provisionLoop (l : List ManagedAccount) (m : Machine) (p : Progress)
    (hp : p.host = m.system.host) (hg : p.host.group = true) :
    (run (exec policy) m (l.flatMap provisionSteps)).system =
      ⟨(l.foldl (provisionOne noFaults policy) p).host, m.system.file⟩ := by
  induction l generalizing m p with
  | nil => rw [List.foldl_nil, hp]; rfl
  | cons r l ih =>
    have hone := @run_provisionSteps policy m p hp hg r
    rw [List.flatMap_cons, run_append, List.foldl_cons, ih _ (provisionOne noFaults policy p r)
      (by rw [hone]) ((provisionOne_frame noFaults policy p r).1.trans hg), hone]

theorem ensureGroup_host (h : Host) : (ensureGroup noFaults h).2 = { h with group := true } := by
  unfold ensureGroup
  cases hg : h.group with
  | false => simp [noFaults]
  | true => simp [noFaults, Host.ext_iff, hg]

/-- The loops do to the host what the synchronisation does to it. -/
theorem run_loopSteps {call : SyncCall} (hf : call.faults = noFaults) (hr : call.readable = true)
    (m : Machine) {current : List ManagedAccount} (hc : loadState true m.system.file = .ok current) :
    (run (exec policy) m (loopSteps T policy call current)).system =
      ⟨(sync T policy call m.system).2.2.host, m.system.file⟩ := by
  let want := desired T policy call.users
  let p₀ : Progress := ⟨(ensureGroup noFaults m.system.host).1,
    (ensureGroup noFaults m.system.host).2, {}⟩
  let m₀ := exec policy m .groupadd
  let p₁ := (call.currentOrder.visit current).foldl (revokeOne noFaults policy want) p₀
  have h₀ : p₀.host = m₀.system.host := ensureGroup_host m.system.host
  have hrev := @run_revokeLoop policy want (call.currentOrder.visit current) m₀ p₀ h₀
  have hgroup : p₁.host.group = true := by
    rw [(revoke_loop_group noFaults policy want _ p₀).1]
    exact ensureGroup_noFaults m.system.host
  have hprov := @run_provisionLoop policy (call.desiredOrder.visit want.toList)
    (run (exec policy) m₀ ((call.currentOrder.visit current).flatMap (revokeSteps policy want))) p₁
    (by rw [hrev]) hgroup
  have hsync : (sync T policy call m.system).2.2.host =
      ((call.desiredOrder.visit want.toList).foldl (provisionOne noFaults policy) p₁).host := by
    unfold sync
    rw [hr, hc, hf]
  rw [loopSteps, run_cons, run_append, hprov, hsync, hrev]
  rfl

/-- A run that is not killed is a call of `Sync`. -/
theorem attempt_complete (m : Machine) {a : Attempt} (ha : a.killed = none) :
    (attempt T policy m a).system = (sync T policy a.call m.system).2.2 := by
  unfold attempt cut steps
  rw [ha]
  cases hc : loadState true m.system.file with
  | error e =>
    have hsync : sync T policy a.call m.system = ({}, some e, m.system) := by
      unfold sync
      rw [show a.call.readable = true from rfl, hc]
    rw [hsync]
    rfl
  | ok current =>
    simp only [run_append]
    have hrun := @run_loopSteps T policy a.call rfl rfl m current hc
    have hfile : (sync T policy a.call m.system).2.2.file =
        .saved (desired T policy a.call.users).toList := by
      unfold sync
      rw [show a.call.readable = true from rfl, hc]
      rfl
    change (⟨(run (exec policy) m (loopSteps T policy a.call current)).system.host, _⟩ : System) = _
    rw [hrun, ← hfile]

/-! ## What the state file knows -/

/-- The invariant of runs in which every user id has one name of its own, as long as
the state file is whole: a provisioned account is unrecorded, recorded or disabled, and
an unrecorded one is enabled. -/
structure Sound (nameOf : Int → Name) (m : Machine) : Prop where
  recorded : ∀ r ∈ m.system.file.users, r.systemUser = nameOf r.userID
  named : ∀ o ∈ m.provisioned, o.systemUser = nameOf o.userID
  present : ∀ o ∈ m.provisioned, (m.system.host.accounts o.systemUser).isSome = true
  known : ∀ o ∈ m.provisioned,
    o ∈ m.orphans ∨ o ∈ m.system.file.users ∨ Disabled m.system.host o.systemUser
  orphaned : ∀ o ∈ m.orphans, o ∈ m.provisioned ∧ o ∉ m.system.file.users ∧
    Enabled m.system.host o.systemUser

variable {nameOf : Int → Name}

theorem eq_of_name (hinj : Function.Injective nameOf) {o r : ManagedAccount}
    (ho : o.systemUser = nameOf o.userID) (hr : r.systemUser = nameOf r.userID)
    (h : o.systemUser = r.systemUser) : o = r := by
  have hid : o.userID = r.userID := hinj (by rw [← ho, ← hr, h])
  cases o
  cases r
  simp_all

theorem sound_onHost {m : Machine} {g : Host → Host} (h : Sound nameOf m)
    (hsome : ∀ y, (m.system.host.accounts y).isSome → ((g m.system.host).accounts y).isSome)
    (hen : ∀ o ∈ m.orphans, Enabled (g m.system.host) o.systemUser)
    (hdis : ∀ y, Disabled m.system.host y → Disabled (g m.system.host) y) :
    Sound nameOf (m.onHost g) := by
  refine ⟨h.recorded, h.named, fun o ho => hsome _ (h.present o ho), ?_, ?_⟩
  · intro o ho
    obtain hk | hk | hk := h.known o ho
    · exact .inl hk
    · exact .inr (.inl hk)
    · exact .inr (.inr (hdis _ hk))
  · intro o ho
    obtain ⟨hp, hr, _⟩ := h.orphaned o ho
    exact ⟨hp, hr, hen o ho⟩

/-- A step that gets the account of a record going and no other. -/
theorem sound_provision (hinj : Function.Injective nameOf) {m : Machine} {g : Host → Host}
    {r : ManagedAccount} (h : Sound nameOf m) (hr : r.systemUser = nameOf r.userID)
    (hother : ∀ y, y ≠ r.systemUser → (g m.system.host).accounts y = m.system.host.accounts y)
    (hen : Enabled (g m.system.host) r.systemUser) :
    Sound nameOf ((m.onHost g).provision r) := by
  have hsome : ∀ o ∈ m.provisioned, ((g m.system.host).accounts o.systemUser).isSome = true := by
    intro o ho
    by_cases hy : o.systemUser = r.systemUser
    · obtain ⟨a, ha, _⟩ := hen
      rw [hy, ha]
      rfl
    · rw [hother _ hy]
      exact h.present o ho
  refine ⟨h.recorded, ?_, ?_, ?_, ?_⟩
  · intro o ho
    obtain ho | ho := List.mem_append.mp ho
    · exact h.named o ho
    · rw [List.mem_singleton.mp ho, hr]
  · intro o ho
    obtain ho | ho := List.mem_append.mp ho
    · exact hsome o ho
    · obtain ⟨a, ha, _⟩ := hen
      rw [List.mem_singleton.mp ho]
      exact Option.isSome_iff_exists.mpr ⟨a, ha⟩
  · have hmem := mem_orphans_provision (m.onHost g) r
    have hself : r ∈ ((m.onHost g).provision r).orphans ∨ r ∈ m.system.file.users := by
      by_cases hm : r ∈ m.system.file.users
      · exact .inr hm
      · exact .inl ((hmem r).mpr (.inr ⟨rfl, hm⟩))
    intro o ho
    obtain ho | ho := List.mem_append.mp ho
    · by_cases hy : o.systemUser = r.systemUser
      · rw [eq_of_name hinj (h.named o ho) hr hy]
        exact hself.imp_right .inl
      · obtain hk | hk | hk := h.known o ho
        · exact .inl ((hmem o).mpr (.inl hk))
        · exact .inr (.inl hk)
        · right; right
          unfold Disabled
          rw [show ((m.onHost g).provision r).system.host = g m.system.host from rfl, hother _ hy]
          exact hk
    · rw [List.mem_singleton.mp ho]
      exact hself.imp_right .inl
  · intro o ho
    obtain ho | ⟨rfl, hm⟩ := (mem_orphans_provision (m.onHost g) r o).mp ho
    · obtain ⟨hp, hf, he⟩ := h.orphaned o ho
      refine ⟨List.mem_append_left _ hp, hf, ?_⟩
      by_cases hy : o.systemUser = r.systemUser
      · rw [hy]
        exact hen
      · unfold Enabled
        rw [show ((m.onHost g).provision r).system.host = g m.system.host from rfl, hother _ hy]
        exact he
    · exact ⟨List.mem_append_right _ (List.mem_singleton_self _), hm, hen⟩

theorem apply_expired (c : Change) (a : Account) (hc : c ≠ .expire) (ha : a.expired = false) :
    (c.apply policy a).expired = false := by
  cases c with
  | expire => exact absurd rfl hc
  | clearExpiry => rfl
  | joinGroup | lock | authorizedKeys => exact ha
  | setShell | sshDir =>
    simp only [Change.apply]
    split <;> exact ha

theorem apply_disabled (c : Change) (a : Account) (hc : c ≠ .clearExpiry)
    (ha : a.locked = true ∧ a.expired = true) :
    (c.apply policy a).locked = true ∧ (c.apply policy a).expired = true := by
  cases c with
  | clearExpiry => exact absurd rfl hc
  | lock => exact ⟨rfl, ha.2⟩
  | expire => exact ⟨ha.1, rfl⟩
  | joinGroup | authorizedKeys => exact ha
  | setShell | sshDir =>
    simp only [Change.apply]
    split <;> exact ha

theorem on_enabled {c : Change} {h : Host} {x y : Name} (hc : y = x → c ≠ .expire) (hy : Enabled h y) :
    Enabled (c.on policy x h) y := by
  obtain ⟨a, ha, he⟩ := hy
  by_cases hx : y = x
  · exact ⟨c.apply policy a, by rw [on_accounts, if_pos hx, ha]; rfl, apply_expired c a (hc hx) he⟩
  · exact ⟨a, by rw [on_accounts, if_neg hx, ha], he⟩

theorem on_disabled {c : Change} {h : Host} {x y : Name} (hc : c ≠ .clearExpiry) (hy : Disabled h y) :
    Disabled (c.on policy x h) y := by
  obtain ⟨a, ha, he⟩ := hy
  by_cases hx : y = x
  · exact ⟨c.apply policy a, by rw [on_accounts, if_pos hx, ha]; rfl, apply_disabled c a hc he⟩
  · exact ⟨a, by rw [on_accounts, if_neg hx, ha], he⟩

/-- What the two loops do, for a state file with these records: an expiry is set for a
record, an account is set up for a user id under the name of that id. -/
def InLoops (nameOf : Int → Name) (users : List ManagedAccount) : Step → Prop
  | .groupadd => True
  | .useradd r => r.systemUser = nameOf r.userID
  | .change .expire r => r ∈ users
  | .change _ r => r ∈ users ∨ r.systemUser = nameOf r.userID
  | _ => False

theorem exec_change_of_ne {m : Machine} {c : Change} (hc : c ≠ .clearExpiry) (r : ManagedAccount) :
    exec policy m (.change c r) = m.onHost (c.on policy r.systemUser) :=
  if_neg fun h => hc h.1

theorem sound_useradd (hinj : Function.Injective nameOf) {m : Machine} {r : ManagedAccount}
    (h : Sound nameOf m) (hr : r.systemUser = nameOf r.userID) :
    Sound nameOf (exec policy m (.useradd r)) := by
  simp only [exec]
  split
  · next hnew =>
    have hc : (createUser noFaults policy (provisionSite r) m.system.host).2 = { m.system.host with
        accounts := fun y => if y = r.systemUser then some (newAccount policy y)
          else m.system.host.accounts y } := by
      unfold createUser
      rw [if_pos ⟨rfl, hnew.2, hnew.1⟩]
      rfl
    refine sound_provision hinj h hr (fun y hy => ?_) ?_
    · rw [hc]
      exact if_neg hy
    · exact ⟨newAccount policy r.systemUser, by rw [hc]; exact if_pos rfl, rfl⟩
  · exact h

theorem sound_clearExpiry (hinj : Function.Injective nameOf) {m : Machine} {r : ManagedAccount}
    (h : Sound nameOf m) (hr : r.systemUser = nameOf r.userID) :
    Sound nameOf (exec policy m (.change .clearExpiry r)) := by
  simp only [exec, true_and]
  split
  · next hx =>
    obtain ⟨a, ha⟩ := Option.isSome_iff_exists.mp hx
    refine sound_provision hinj h hr (fun y hy => ?_) ?_
    · rw [on_accounts, if_neg hy]
    · exact ⟨_, by rw [on_accounts, if_pos rfl, ha]; rfl, rfl⟩
  · next hx =>
    have hnone : m.system.host.accounts r.systemUser = none := by simpa using hx
    have hsame : m.onHost (Change.clearExpiry.on policy r.systemUser) = m := by
      simp only [Machine.onHost, Change.on, adjust_of_none _ _ _ hnone, hnone]
      rfl
    rw [hsame]
    exact h

/-- The other changes enable nothing, and only recorded accounts are expired. -/
theorem sound_change (hinj : Function.Injective nameOf) {m : Machine} {c : Change}
    {r : ManagedAccount} (h : Sound nameOf m) (hc : c ≠ .clearExpiry)
    (hr : c = .expire → r ∈ m.system.file.users) : Sound nameOf (exec policy m (.change c r)) := by
  rw [exec_change_of_ne hc]
  refine sound_onHost h (fun y hy => ?_) (fun o ho => ?_) fun y hy => on_disabled hc hy
  · rwa [Change.on, emptyKeys_accounts, isSome_adjust]
  · obtain ⟨hp, hf, hen⟩ := h.orphaned o ho
    refine on_enabled (fun hx he => ?_) hen
    rw [eq_of_name hinj (h.named o hp) (h.recorded r (hr he)) hx] at hf
    exact hf (hr he)

theorem exec_sound (hinj : Function.Injective nameOf) {m : Machine} {s : Step}
    (h : Sound nameOf m) (hs : InLoops nameOf m.system.file.users s) :
    Sound nameOf (exec policy m s) := by
  cases s with
  | groupadd =>
    change Sound nameOf (m.onHost fun h => { h with group := true })
    exact sound_onHost h (fun _ hy => hy) (fun o ho => (h.orphaned o ho).2.2) fun _ hy => hy
  | useradd r => exact sound_useradd hinj h hs
  | change c r =>
    by_cases hc : c = .clearExpiry
    · subst hc
      exact sound_clearExpiry hinj h (hs.elim (h.recorded r) id)
    · refine sound_change hinj h hc fun he => ?_
      subst he
      exact hs
  | truncate => exact hs.elim
  | write users => exact hs.elim

theorem exec_file {m : Machine} {s : Step} {users : List ManagedAccount}
    (hs : InLoops nameOf users s) : (exec policy m s).system.file = m.system.file := by
  cases s with
  | groupadd => rfl
  | useradd r => rw [exec_useradd_system]
  | change c r => rw [exec_change_system]
  | truncate => exact hs.elim
  | write users => exact hs.elim

theorem loopSteps_inLoops {call : SyncCall} (hname : Named T policy nameOf call.users)
    (current : List ManagedAccount) :
    ∀ s ∈ loopSteps T policy call current, InLoops nameOf current s := by
  intro s hs
  obtain rfl | hs := List.mem_cons.mp hs
  · trivial
  · obtain hs | hs := List.mem_append.mp hs
    · obtain ⟨r, hr, hs⟩ := List.mem_flatMap.mp hs
      have hr : r ∈ current := (Iteration.mem_visit _ _ r).mp hr
      unfold revokeSteps at hs
      split at hs
      · cases hs
      · obtain ⟨c, _, rfl⟩ := List.mem_map.mp hs
        cases c with
        | expire => exact hr
        | _ => exact .inl hr
    · obtain ⟨r, hr, hs⟩ := List.mem_flatMap.mp hs
      have hr : r.systemUser = nameOf r.userID :=
        name_of_mem hname ((Iteration.mem_visit _ _ r).mp hr)
      obtain rfl | hs := List.mem_cons.mp hs
      · exact hr
      · obtain ⟨c, hc, rfl⟩ := List.mem_map.mp hs
        cases c with
        | expire => exact absurd hc (by decide)
        | _ => exact .inr hr

/-- Wherever the loops are cut off, the state file is as it was and the invariant holds. -/
theorem run_sound (hinj : Function.Injective nameOf) {m : Machine} (h : Sound nameOf m)
    {ss : List Step} (hs : ∀ s ∈ ss, InLoops nameOf m.system.file.users s) :
    Sound nameOf (run (exec policy) m ss) ∧
      (run (exec policy) m ss).system.file = m.system.file := by
  refine run_invariant (P := fun _ s => InLoops nameOf m.system.file.users s)
    (I := fun m' => Sound nameOf m' ∧ m'.system.file = m.system.file) ?_ ⟨h, rfl⟩
    (along_of_mem m hs)
  rintro m' s ⟨hm', hfile⟩ hs'
  have hs' : InLoops nameOf m'.system.file.users s := by rwa [hfile]
  exact ⟨exec_sound hinj hm' hs', (exec_file hs').trans hfile⟩

/-- What a call does to the account of a user it does not list: it is disabled if the
state file records it, and otherwise left alone. -/
theorem unlisted_retires (hp : policy.lockOnRevoke = true) (hinj : Function.Injective nameOf)
    {sys : System} (hrec : ∀ r ∈ sys.file.users, r.systemUser = nameOf r.userID)
    (hfile : sys.file ≠ .torn) {call : SyncCall} (hf : call.faults = noFaults)
    (hio : call.StateFileOk) (hname : Named T policy nameOf call.users) {o : ManagedAccount}
    (ho : o.systemUser = nameOf o.userID) (hout : ∀ u ∈ call.users, u.userID ≠ o.userID) :
    Retires (o ∈ sys.file.users) (o ∈ sys.file.users) (sys.host.accounts o.systemUser)
      ((sync T policy call sys).2.2.host.accounts o.systemUser) := by
  obtain ⟨_, hun, _, _⟩ := sync_spec T hp hio hfile
  have hstale : ∀ P : ManagedAccount → Prop, P o →
      ((∃ r ∈ sys.file.users, Stale (desired T policy call.users) o.systemUser r ∧ P r) ↔
        o ∈ sys.file.users) := by
    intro P hP
    constructor
    · rintro ⟨r, hr, hs, _⟩
      rwa [eq_of_name hinj ho (hrec r hr) hs.1.symm]
    · refine fun hr => ⟨o, hr, ⟨rfl, ?_⟩, hP⟩
      rw [← Option.not_isSome_iff_eq_none, find_desired]
      rintro ⟨u, hu, hi⟩
      exact hout u hu hi
  have hret := hun o.systemUser fun q hq hqo => by
    obtain ⟨u, hu, hqu⟩ := mem_desired hq
    rw [eq_of_name hinj (name_of_mem hname hq) ho hqo] at hqu
    exact hout u hu (congrArg ManagedAccount.userID hqu).symm
  rw [hf] at hret
  rwa [hstale _ ⟨rfl, rfl⟩, hstale _ ⟨⟨rfl, rfl⟩, rfl⟩] at hret

theorem retires_disabled {h h' : Host} {x : Name} {p : Prop}
    (hret : Retires p p (h.accounts x) (h'.accounts x)) (hx : (h'.accounts x).isSome = true)
    (hp : p ∨ Disabled h x) : Disabled h' x := by
  obtain ⟨b, hb⟩ := Option.isSome_iff_exists.mp hx
  have ha : h.accounts x ≠ none := fun hn => by simp [hret.1.mpr hn] at hx
  obtain ⟨a, ha⟩ := Option.ne_none_iff_exists'.mp ha
  obtain ⟨b, hb, hl, he⟩ := hret.2 a ha
  obtain hp | ⟨a', ha', hla, hea⟩ := hp
  · exact ⟨b, hb, hl.mpr (.inr hp), he.mpr (.inr hp)⟩
  · rw [ha] at ha'
    obtain rfl := Option.some.inj ha'
    exact ⟨b, hb, hl.mpr (.inl hla), he.mpr (.inl hea)⟩

/-- The account of a listed user is recorded by the state file that is written. -/
theorem mem_desired_of_listed (hinj : Function.Injective nameOf) {users : List AccessUser}
    (hname : Named T policy nameOf users) {o : ManagedAccount}
    (ho : o.systemUser = nameOf o.userID) {u : AccessUser} (hu : u ∈ users)
    (hi : u.userID = o.userID) : o ∈ desired T policy users := by
  obtain ⟨q, hq, hqx⟩ := wanted_of_mem hname hu
  rw [eq_of_name hinj ho (name_of_mem hname hq) (by rw [ho, hqx, hi])]
  exact hq

/-- A run that gets to the end leaves a state file that knows what it has to. -/
theorem save_sound (hp : policy.lockOnRevoke = true) (hinj : Function.Injective nameOf)
    {m : Machine} (h : Sound nameOf m) (hfile : m.system.file ≠ .torn) {a : Attempt}
    (hname : Named T policy nameOf a.users) :
    Sound nameOf (run (exec policy) m
      (loopSteps T policy a.call m.system.file.users ++ saveSteps T policy a.call)) := by
  have hloops := @loopSteps_inLoops T policy nameOf a.call hname m.system.file.users
  obtain ⟨h₁, hf₁⟩ := run_sound hinj h hloops
  have hload : loadState true m.system.file = .ok m.system.file.users := loadState_ok hfile
  have hsys := @run_loopSteps T policy a.call rfl rfl m m.system.file.users hload
  rw [run_append]
  generalize run (exec policy) m (loopSteps T policy a.call m.system.file.users) = m₁ at h₁ hf₁ hsys
  have hhost : (sync T policy a.call m.system).2.2.host = m₁.system.host := by rw [hsys]
  have horph : ∀ o, o ∈ (run (exec policy) m₁ (saveSteps T policy a.call)).orphans ↔
      o ∈ m₁.orphans ∧ o ∉ desired T policy a.users := by
    intro o
    simp [saveSteps, exec, Attempt.call]
  refine ⟨fun r hr => name_of_mem hname hr, h₁.named, h₁.present, ?_, ?_⟩
  · intro o ho
    by_cases hlisted : ∃ u ∈ a.users, u.userID = o.userID
    · obtain ⟨u, hu, hi⟩ := hlisted
      exact .inr (.inl (mem_desired_of_listed hinj hname (h₁.named o ho) hu hi))
    · push Not at hlisted
      have hret := unlisted_retires hp hinj h.recorded hfile (show a.call.faults = noFaults from rfl)
        ⟨rfl, rfl⟩ hname (h₁.named o ho) hlisted
      rw [hhost] at hret
      obtain hk | hk | hk := h₁.known o ho
      · by_cases hw : o ∈ desired T policy a.users
        · exact .inr (.inl hw)
        · exact .inl ((horph o).mpr ⟨hk, hw⟩)
      · rw [hf₁] at hk
        exact .inr (.inr (retires_disabled hret (h₁.present o ho) (.inl hk)))
      · exact .inr (.inr hk)
  · intro o ho
    obtain ⟨ho, hw⟩ := (horph o).mp ho
    obtain ⟨hpr, _, hen⟩ := h₁.orphaned o ho
    exact ⟨hpr, hw, hen⟩

theorem attempt_sound (hp : policy.lockOnRevoke = true) (hinj : Function.Injective nameOf)
    {m : Machine} {a : Attempt} (hname : Named T policy nameOf a.users)
    (h : m.system.file = .torn ∨ Sound nameOf m) :
    (attempt T policy m a).system.file = .torn ∨ Sound nameOf (attempt T policy m a) := by
  unfold attempt steps
  by_cases hfile : m.system.file = .torn
  · left
    rw [hfile]
    cases a.killed <;> simp [loadState, cut, hfile]
  · have hm : Sound nameOf m := h.resolve_left hfile
    rw [loadState_ok hfile]
    have hall := cut_initial a.killed
      (loopSteps T policy a.call m.system.file.users ++ saveSteps T policy a.call)
    generalize cut a.killed _ = ss at hall
    have hsave : loopSteps T policy a.call m.system.file.users ++ saveSteps T policy a.call =
        (loopSteps T policy a.call m.system.file.users ++ [.truncate]) ++
          [.write (desired T policy a.users).toList] := by
      simp [saveSteps, Attempt.call]
    -- the cut is at the end, after the truncation, or in the loops
    obtain rfl | hpre := List.prefix_concat_iff.mp (hsave ▸ hall)
    · right
      rw [← hsave]
      exact save_sound hp hinj hm hfile hname
    · obtain rfl | hpre := List.prefix_concat_iff.mp hpre
      · left
        rw [run_append]
        rfl
      · right
        have hloops := @loopSteps_inLoops T policy nameOf a.call hname m.system.file.users
        exact (run_sound hinj hm fun s hs => hloops s (hpre.subset hs)).1

theorem sound_unsynced (host : Host) : Sound nameOf (unsynced host) := by
  constructor <;> simp [unsynced, StateFile.users]

/-- With the state file whole, the next call recovers if and only if it lists the
users of the unrecorded accounts. -/
theorem recovers_of_sound (hp : policy.lockOnRevoke = true) (hinj : Function.Injective nameOf)
    {m : Machine} (h : Sound nameOf m) (hfile : m.system.file ≠ .torn) {next : Attempt}
    (hname : Named T policy nameOf next.users) :
    Recovers T policy m next.call ↔
      ∀ o ∈ m.orphans, ∃ u ∈ next.users, u.userID = o.userID := by
  have hio : next.call.StateFileOk := ⟨rfl, rfl⟩
  have hret := fun (o : ManagedAccount) ho hout =>
    unlisted_retires hp hinj h.recorded hfile (show next.call.faults = noFaults from rfl) hio hname
      (o := o) ho hout
  constructor
  · rintro ⟨_, hdis⟩ o ho
    by_contra hno
    push Not at hno
    obtain ⟨hpr, hrec, a, ha, hea⟩ := h.orphaned o ho
    obtain ⟨b, hb, _, heb⟩ := hdis o hpr hno
    obtain ⟨b', hb', _, he'⟩ := (hret o (h.named o hpr) hno).2 a ha
    rw [hb] at hb'
    obtain rfl := Option.some.inj hb'
    obtain he | hr := he'.mp heb
    · rw [hea] at he
      cases he
    · exact hrec hr
  · intro hlisted
    refine ⟨⟨_, loadState_ok hfile⟩, fun o ho hout => ?_⟩
    have hx : ((sync T policy next.call m.system).2.2.host.accounts o.systemUser).isSome = true :=
      (sync_spec T hp hio hfile).2.2.1 _ (h.present o ho)
    obtain hk | hk | hk := h.known o ho
    · obtain ⟨u, hu, hi⟩ := hlisted o hk
      exact absurd hi (hout u hu)
    · exact retires_disabled (hret o (h.named o ho) hout) hx (.inl hk)
    · exact retires_disabled (hret o (h.named o ho) hout) hx (.inr hk)

/-- After any synchronisations, killed wherever they were, the next one that is not
killed recovers if and only if nothing was lost. -/
theorem recovers_iff (hp : policy.lockOnRevoke = true) (hinj : Function.Injective nameOf)
    (host : Host) (attempts : List Attempt) (next : Attempt)
    (hname : ∀ a ∈ next :: attempts, Named T policy nameOf a.users) :
    Recovers T policy (run (attempt T policy) (unsynced host) attempts) next.call ↔
      NothingLost (run (attempt T policy) (unsynced host) attempts) next.call := by
  have hsound : (run (attempt T policy) (unsynced host) attempts).system.file = .torn ∨
      Sound nameOf (run (attempt T policy) (unsynced host) attempts) := by
    refine run_invariant (P := fun _ (a : Attempt) => Named T policy nameOf a.users)
      (I := fun m => m.system.file = .torn ∨ Sound nameOf m) ?_ (.inr (sound_unsynced host)) ?_
    · exact fun m a hm ha => attempt_sound hp hinj ha hm
    · exact along_of_mem _ fun a ha => hname a (List.mem_cons_of_mem next ha)
  generalize run (attempt T policy) (unsynced host) attempts = m at hsound ⊢
  by_cases hfile : m.system.file = .torn
  · constructor
    · rintro ⟨⟨current, hc⟩, _⟩
      rw [hfile] at hc
      cases hc
    · exact fun hno => absurd hfile hno.1
  · rw [recovers_of_sound hp hinj (hsound.resolve_left hfile) hfile (hname next List.mem_cons_self),
      NothingLost]
    simp [hfile, Attempt.call]

/-! ## Killed before the state file is written -/

/-- A name of its own for every user id. -/
def tally (i : Int) : Name := List.replicate i.toNat 'a' ++ List.replicate (-i).toNat 'b'

theorem tally_injective : Function.Injective tally := by
  intro i j h
  have ha := congrArg (List.count 'a') h
  have hb := congrArg (List.count 'b') h
  simp [tally, List.count_replicate] at ha hb
  omega

def first : AccessUser := ⟨1, "a".toList, "a".toList⟩

/-- The first synchronisation, killed when the account is set up and not yet recorded. -/
def unrecordedAttempt : Attempt where
  users := [first]
  killed := some 8

/-- The next one still lists the user. -/
theorem recovers_while_listed :
    Recovers .keep lockPolicy
      (run (attempt .keep lockPolicy) (unsynced bareHost) [unrecordedAttempt])
      (Attempt.call { users := [first] }) := by
  refine (recovers_iff rfl tally_injective bareHost [unrecordedAttempt] { users := [first] }
    ?_).mpr ⟨by decide, ?_⟩
  · intro a ha u hu
    have hu : u = first := by
      obtain rfl | rfl := List.mem_pair.mp ha <;> exact List.mem_singleton.mp hu
    rw [hu]
    rfl
  · intro o ho
    have horph : (run (attempt .keep lockPolicy) (unsynced bareHost) [unrecordedAttempt]).orphans =
      [⟨1, "a".toList⟩, ⟨1, "a".toList⟩] := by decide
    rw [horph] at ho
    refine ⟨first, List.mem_singleton_self _, ?_⟩
    obtain rfl | rfl := List.mem_pair.mp ho <;> rfl

/-- The user has lost access before the next one: the account stays enabled and no
state file knows of it. -/
theorem kill_loses_account :
    ¬ ∀ (T : CaseTable) (policy : AccountPolicy) (nameOf : Int → Name) (host : Host)
      (attempts : List Attempt) (next : Attempt), policy.lockOnRevoke = true →
      Function.Injective nameOf → (∀ a ∈ next :: attempts, Named T policy nameOf a.users) →
      Recovers T policy (run (attempt T policy) (unsynced host) attempts) next.call := by
  intro h
  obtain ⟨_, hdis⟩ := h .keep lockPolicy tally bareHost [unrecordedAttempt] { users := [] } rfl
    tally_injective (by
      intro a ha u hu
      obtain rfl | rfl := List.mem_pair.mp ha
      · cases hu
      · rw [List.mem_singleton.mp hu]
        rfl)
  obtain ⟨a, ha, _, he⟩ := hdis ⟨1, "a".toList⟩ (by decide) (by intro u hu; cases hu)
  have hacc : (sync .keep lockPolicy (Attempt.call { users := [] })
      (run (attempt .keep lockPolicy) (unsynced bareHost) [unrecordedAttempt]).system).2.2.host.accounts
      "a".toList = some ⟨"/home/a".toList, true, "/bin/bash".toList, true, true, false⟩ := by
    decide
  rw [hacc] at ha
  obtain rfl := Option.some.inj ha
  cases he

end Keywarden.AgentCrash
