import Keywarden.AgentSync

/-!
# Accounts that were there before the agent

`accounts.Sync` keeps no record of who made an account: it provisions what it finds
under a wanted name, and writes every wanted name to the state file that later
revocations go by. An account under a name that no call has wanted is left alone, and
so are its authorized keys unless a wanted account has the same file of them: they are
written by the path below the home directory, which accounts may share.
-/
namespace Keywarden.ForeignAccounts

open Rows Text Transitions AgentHost Username AgentSync

/-- A call of `Sync`, with the policy that the configuration has at the time. -/
structure Call where
  policy : AccountPolicy
  sync : SyncCall

def next (T : CaseTable) (sys : System) (call : Call) : System :=
  (sync T call.policy call.sync sys).2.2

/-- A host on which the agent has not run. -/
def untouched (host : Host) : System := ⟨host, .absent⟩

/-- One of the users of the call is to have the account. -/
def Names (T : CaseTable) (x : Name) (call : Call) : Prop := Wanted T call.policy call.sync.users x

/-- The authorized keys of the other account, as it is or as it would be made, are in the
file that the first one has its keys in. -/
def Shares (host : Host) (x y : Name) : Prop :=
  host.homeOf y ≠ [] ∧ host.keysFile (host.homeOf y) = host.keysFile (host.homeOf x)

/-- Work on the account `y` is no work on `x`, nor on its authorized keys. -/
def Apart (host : Host) (x y : Name) : Prop := y ≠ x ∧ ¬ Shares host x y

/-- The account is as it was, with its authorized keys. -/
def SameAccount (x : Name) (host host' : Host) : Prop :=
  host'.accounts x = host.accounts x ∧ host'.keysOf x = host.keysOf x

/-! ## One call -/

/-- The host has changed, if at all, away from the account. -/
structure Aside (x : Name) (h h' : Host) : Prop where
  account : h'.accounts x = h.accounts x
  keysFile : h'.keysFile = h.keysFile
  homeOf : ∀ y, h'.homeOf y = h.homeOf y
  keys : h'.keysOf x = h.keysOf x

theorem Aside.refl (x : Name) (h : Host) : Aside x h h := ⟨rfl, rfl, fun _ => rfl, rfl⟩

theorem Aside.trans {x : Name} {h h' h'' : Host} (ha : Aside x h h') (ha' : Aside x h' h'') :
    Aside x h h'' :=
  ⟨ha'.account.trans ha.account, ha'.keysFile.trans ha.keysFile,
    fun y => (ha'.homeOf y).trans (ha.homeOf y), ha'.keys.trans ha.keys⟩

theorem Aside.apart {x : Name} {h h' : Host} (ha : Aside x h h') (y : Name) :
    Apart h' x y ↔ Apart h x y := by
  simp only [Apart, Shares, ha.keysFile, ha.homeOf]

/-- Work on one account is away from those apart from it. -/
theorem aside_of_touches {x y : Name} {h h' : Host} (ht : Touches y h h') (hapart : Apart h x y) :
    Aside x h h' := by
  refine ⟨ht.others x hapart.1.symm, ht.keysFile, ht.homeOf, ?_⟩
  rw [Host.keysOf, ht.keysFile, ht.homeOf x]
  exact ht.keys _ fun hhome he => hapart.2 ⟨hhome, he.symm⟩

theorem touches_revokeOne (f : Faults) (policy : AccountPolicy) (want : Table ManagedAccount)
    (p : Progress) (r : ManagedAccount) :
    Touches r.systemUser p.host (revokeOne f policy want p r).host := by
  unfold revokeOne
  split
  · exact Touches.refl _ _
  · exact local_revokeUser f policy (revokeSite r) p.host

theorem touches_provisionOne (f : Faults) (policy : AccountPolicy) (p : Progress) (r : ManagedAccount) :
    Touches r.systemUser p.host (provisionOne f policy p r).host :=
  touches_ensureAccount f policy (provisionSite r) p.host

/-- A loop over records of other accounts. -/
theorem aside_loop {turn : Progress → ManagedAccount → Progress}
    (hturn : ∀ p r, Touches r.systemUser p.host (turn p r).host) {x : Name} (l : List ManagedAccount)
    {p : Progress} (hl : ∀ r ∈ l, Apart p.host x r.systemUser) : Aside x p.host (l.foldl turn p).host := by
  induction l generalizing p with
  | nil => exact Aside.refl x p.host
  | cons r l ih =>
    have hone : Aside x p.host (turn p r).host :=
      aside_of_touches (hturn p r) (hl r List.mem_cons_self)
    exact hone.trans (ih fun q hq => (hone.apart q.systemUser).mpr (hl q (List.mem_cons_of_mem r hq)))

theorem aside_ensureGroup (f : Faults) (x : Name) (h : Host) : Aside x h (ensureGroup f h).2 := by
  unfold ensureGroup
  split_ifs <;> exact ⟨rfl, rfl, fun _ => rfl, rfl⟩

theorem loadState_users {readable : Bool} {file : StateFile} {current : List ManagedAccount}
    (h : loadState readable file = .ok current) : current = file.users := by
  cases file <;> cases readable <;> cases h <;> rfl

/-- The state file afterwards holds what it held, nothing, or the wanted accounts. -/
theorem saveState_users (outcome : SaveOutcome) (want : List ManagedAccount) (file : StateFile)
    {r : ManagedAccount} (h : r ∈ (saveState outcome want file).2.users) :
    r ∈ file.users ∨ r ∈ want := by
  cases outcome with
  | ok => exact .inr h
  | refused => exact .inl h
  | unopened => exact .inl h
  | torn => cases h

/-- A call whose recorded and wanted accounts are all apart from an account does nothing to
it, and records none but those. -/
theorem next_aside {T : CaseTable} {sys : System} {call : Call} {x : Name}
    (hrec : ∀ y, Recorded sys y → Apart sys.host x y)
    (hwant : ∀ y, Names T y call → Apart sys.host x y) :
    Aside x sys.host (next T sys call).host ∧
      ∀ y, Recorded (next T sys call) y → Apart sys.host x y := by
  unfold next sync
  split
  · exact ⟨Aside.refl x sys.host, hrec⟩
  · next current hload =>
    have hcurrent := loadState_users hload
    let want := desired T call.policy call.sync.users
    let p₀ : Progress :=
      ⟨(ensureGroup call.sync.faults sys.host).1, (ensureGroup call.sync.faults sys.host).2, {}⟩
    let p₁ := (call.sync.currentOrder.visit current).foldl
      (revokeOne call.sync.faults call.policy want) p₀
    let p₂ := (call.sync.desiredOrder.visit want.toList).foldl
      (provisionOne call.sync.faults call.policy) p₁
    have hgroup : Aside x sys.host p₀.host := aside_ensureGroup call.sync.faults x sys.host
    have hrevoke : Aside x p₀.host p₁.host := by
      refine aside_loop (touches_revokeOne _ _ _) _ fun r hr => (hgroup.apart _).mpr ?_
      exact hrec _ ⟨r, hcurrent ▸ (Iteration.mem_visit _ _ r).mp hr, rfl⟩
    have hprovision : Aside x p₁.host p₂.host := by
      refine aside_loop (touches_provisionOne _ _) _ fun r hr =>
        ((hgroup.trans hrevoke).apart _).mpr ?_
      exact hwant _ ⟨r, (Iteration.mem_visit _ _ r).mp hr, rfl⟩
    refine ⟨(hgroup.trans hrevoke).trans hprovision, ?_⟩
    rintro y ⟨r, hr, rfl⟩
    obtain hr | hr := saveState_users _ _ _ hr
    · exact hrec _ ⟨r, hr, rfl⟩
    · exact hwant _ ⟨r, hr, rfl⟩

/-! ## Every run of calls -/

/-- An account is as it was before the agent, with its authorized keys, as long as no call
has wanted it or another account with the same file of authorized keys. -/
theorem left_alone (T : CaseTable) (host : Host) (x : Name) (calls : List Call)
    (h : ∀ call ∈ calls, ∀ y, Names T y call → Apart host x y) :
    Always (next T) (fun sys => SameAccount x host sys.host) (untouched host) calls := by
  have hall : Always (next T)
      (fun sys => Aside x host sys.host ∧ ∀ y, Recorded sys y → Apart host x y)
      (untouched host) calls := by
    refine always_invariant (P := fun _ call => ∀ y, Names T y call → Apart host x y) ?_ ⟨?_, ?_⟩
      (along_of_mem _ h)
    · rintro sys call ⟨haside, hrec⟩ hwant
      have hback := fun y => haside.apart y
      obtain ⟨hnext, hrec'⟩ := next_aside (fun y hy => (hback y).mpr (hrec y hy))
        fun y hy => (hback y).mpr (hwant y hy)
      exact ⟨haside.trans hnext, fun y hy => (hback y).mp (hrec' y hy)⟩
    · exact Aside.refl x host
    · rintro y ⟨r, hr, _⟩
      cases hr
  refine (always_iff _ _ _ _).mpr fun bs hb => ?_
  have haside := ((always_iff _ _ _ _).mp hall bs hb).1
  exact ⟨haside.account, haside.keys⟩

/-! ## A user of the name of a service account -/

def postgres : Account where
  home := "/var/lib/postgresql".toList
  homeExists := true
  shell := "/bin/bash".toList
  inGroup := false
  locked := false
  expired := false

/-- The account with one key, and another account with the same home directory. -/
def databaseHost : Host where
  accounts x :=
    if x = "postgres".toList ∨ x = "backup".toList then some postgres else none
  group := false
  authorizedKeys p :=
    if p = "/var/lib/postgresql/.ssh/authorized_keys".toList then some "ssh-ed25519 AAAA\n".toList
    else none

/-- Accounts under the plain names of their users, which cannot be logged in to. -/
def noShell : AccountPolicy := ⟨"{{username}}".toList, "/usr/sbin/nologin".toList, true, true⟩

def grants (username : String) : Call := ⟨noShell, { users := [⟨1, username.toList, []⟩] }⟩
def revokes : Call := ⟨noShell, { users := [] }⟩

theorem names_grants {username : String} {x y : Name}
    (hx : (desired .keep noShell (grants username).sync.users).toList.map (·.systemUser) = [x])
    (hy : Names .keep y (grants username)) : y = x := by
  obtain ⟨q, hq, rfl⟩ := hy
  have hmem := List.mem_map_of_mem (f := ManagedAccount.systemUser) hq
  exact List.mem_singleton.mp (hx ▸ hmem)

/-- Alice comes and goes, and the account stays as it is. -/
theorem postgres_left_alone :
    Always (next .keep) (fun sys => SameAccount "postgres".toList databaseHost sys.host)
      (untouched databaseHost) [grants "alice", revokes] := by
  refine left_alone .keep databaseHost "postgres".toList _ fun call hcall y hy => ?_
  obtain rfl | rfl := List.mem_pair.mp hcall
  · rw [names_grants (x := "alice".toList) (by decide) hy]
    exact ⟨by decide, fun hshares => absurd hshares.2 (by decide)⟩
  · obtain ⟨q, hq, _⟩ := hy
    exact absurd hq (Table.not_mem_empty q)

/-- The account but for its home directory: lock, expiry, shell and group. -/
def controls (a : Account) : Account := { a with home := [], homeExists := false }

/-- What the synchronisation must not change: the controls of the account and its keys. -/
def SameControls (x : Name) (host host' : Host) : Prop :=
  (host'.accounts x).map controls = (host.accounts x).map controls ∧ host'.keysOf x = host.keysOf x

/-- A user whose rendered name is that of the account takes it over, and a user whose account
shares its home directory takes its keys. -/
theorem postgres_taken_over :
    (¬ ∀ (T : CaseTable) (host : Host) (x : Name) (calls : List Call), (host.accounts x).isSome →
      Always (next T) (fun sys => SameControls x host sys.host) (untouched host) calls) ∧
    ¬ ∀ (T : CaseTable) (host : Host) (x : Name) (calls : List Call), (host.accounts x).isSome →
      (∀ call ∈ calls, ¬ Names T x call) →
      Always (next T) (fun sys => SameControls x host sys.host) (untouched host) calls := by
  constructor
  · intro h
    have hlast := always_last (h .keep databaseHost "postgres".toList [grants "Postgres", revokes] rfl)
    have hcontrols : ((run (next .keep) (untouched databaseHost)
        [grants "Postgres", revokes]).host.accounts "postgres".toList).map controls =
        some ⟨[], false, "/usr/sbin/nologin".toList, true, true, true⟩ := by decide
    rw [SameControls, hcontrols] at hlast
    exact absurd hlast.1 (by decide)
  · intro h
    have hnames : ∀ call ∈ [grants "backup"], ¬ Names .keep "postgres".toList call := by
      intro call hcall hpostgres
      rw [List.mem_singleton.mp hcall] at hpostgres
      exact absurd (names_grants (x := "backup".toList) (by decide) hpostgres) (by decide)
    have hlast := always_last (h .keep databaseHost "postgres".toList [grants "backup"] rfl hnames)
    have hkeys : (run (next .keep) (untouched databaseHost)
        [grants "backup"]).host.keysOf "postgres".toList = some [] := by decide
    rw [SameControls, hkeys] at hlast
    exact absurd hlast.2 (by decide)

end Keywarden.ForeignAccounts
