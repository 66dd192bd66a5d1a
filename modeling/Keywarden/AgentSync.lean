import Keywarden.AgentHost
import Keywarden.Rows
import Keywarden.Transitions
import Keywarden.Username

/-!
# The synchronisation of the agent

`accounts.Sync` with the state file it reads and writes, and runs of it. Revoking
goes through the accounts of the state file whose user id is not wanted any more,
provisioning through the accounts that are wanted, each in an order the caller
cannot choose; every error is kept if it is the first and otherwise passed over.
-/
namespace Keywarden.AgentSync

open Rows Text Transitions AgentHost Username

structure AccessUser where
  userID : Int
  username : List Char
  systemUsername : List Char
  deriving DecidableEq, Repr

structure ReportAccount where
  userID : Int
  systemUser : Name
  present : Bool
  deriving DecidableEq, Repr

structure ManagedAccount where
  userID : Int
  systemUser : Name
  deriving DecidableEq, Repr

instance : Keyed ManagedAccount Int := ⟨ManagedAccount.userID⟩

structure Result where
  applied : Nat := 0
  revoked : Nat := 0
  accounts : List ReportAccount := []
  deriving DecidableEq, Repr

/-- `strings.ToLower` on one rune: U+0130 and the Kelvin sign go to ASCII letters. -/
def goLowerChar (T : CaseTable) (c : Char) : Char :=
  if c.toNat < 128 then c.toLower
  else if c.toNat = 0x130 then 'i'
  else if c.toNat = 0x212A then 'k'
  else T.other c

def goSanitizeUsername (T : CaseTable) (raw : List Char) : List Char :=
  let raw := raw.map (goLowerChar T)
  let out := strip isDash (raw.map fun r => if allowed r then r else '_')
  if out = [] then []
  else if ['-'].isPrefixOf out then "kw".toList ++ out
  else out

def renderUsername (T : CaseTable) (template username : List Char) (userID : Int) : Name :=
  let raw := fillTemplate template username userID
  let clean := goSanitizeUsername T raw
  let clean := if clean.length > maxUsernameLen then clean.take maxUsernameLen else clean
  if clean = [] then "kw_".toList ++ str userID else clean

/-- What the state file at `statePath` holds: a truncated file does not parse. The
map is keyed by the printed user id, so its values are a list. -/
inductive StateFile where
  | absent
  | torn
  | saved : List ManagedAccount → StateFile
  deriving DecidableEq, Repr

def StateFile.users : StateFile → List ManagedAccount
  | .saved users => users
  | _ => []

/-- How `saveState` ends: the directory cannot be made, the file cannot be opened, or the
write stops after the file has been truncated. -/
inductive SaveOutcome where
  | ok | refused | unopened | torn
  deriving DecidableEq, Repr

def loadState (readable : Bool) : StateFile → Except Failure (List ManagedAccount)
  | .absent => .ok []
  | .torn => if readable then .error ⟨"parse state", []⟩ else .error ⟨"read state", []⟩
  | .saved users => if readable then .ok users else .error ⟨"read state", []⟩

def saveState (outcome : SaveOutcome) (desired : List ManagedAccount) (file : StateFile) :
    Option Failure × StateFile :=
  match outcome with
  | .ok => (none, .saved desired)
  | .refused => (some ⟨"create state dir", []⟩, file)
  | .unopened => (some ⟨"write state", []⟩, file)
  | .torn => (some ⟨"write state", []⟩, .torn)

/-- The order in which a `range` loop goes through a map. -/
structure Iteration where
  visit : List ManagedAccount → List ManagedAccount
  perm : ∀ l, (visit l).Perm l

def Iteration.listed : Iteration := ⟨id, fun l => List.Perm.refl l⟩

theorem Iteration.mem_visit (it : Iteration) (l : List ManagedAccount) (r : ManagedAccount) :
    r ∈ it.visit l ↔ r ∈ l := (it.perm l).mem_iff

/-- A call of `Sync`: its user list, and everything the environment decides. -/
structure SyncCall where
  users : List AccessUser
  faults : Faults := noFaults
  currentOrder : Iteration := .listed
  desiredOrder : Iteration := .listed
  readable : Bool := true
  save : SaveOutcome := .ok

def managed (T : CaseTable) (policy : AccountPolicy) (user : AccessUser) : ManagedAccount where
  userID := user.userID
  systemUser :=
    if strip goSpace user.systemUsername = [] then
      renderUsername T policy.usernameTemplate user.username user.userID
    else user.systemUsername

/-- The map `desired`: the last entry of a user id stands. -/
def desired (T : CaseTable) (policy : AccountPolicy) (users : List AccessUser) :
    Table ManagedAccount :=
  users.foldl (fun t user => t.upsert (managed T policy user)) .empty

structure Progress where
  syncErr : Option Failure
  host : Host
  result : Result

def revokeSite (r : ManagedAccount) : Site := ⟨.revoke, r.userID, r.systemUser⟩
def provisionSite (r : ManagedAccount) : Site := ⟨.provision, r.userID, r.systemUser⟩

/-- The body of the first loop. -/
def revokeOne (f : Faults) (policy : AccountPolicy) (want : Table ManagedAccount) (p : Progress)
    (r : ManagedAccount) : Progress :=
  if (want.find r.userID).isSome then p
  else
    let (e, host) := revokeUser f policy (revokeSite r) p.host
    ⟨p.syncErr.or e, host, { p.result with revoked := p.result.revoked + 1 }⟩

/-- The body of the second loop. -/
def provisionOne (f : Faults) (policy : AccountPolicy) (p : Progress) (r : ManagedAccount) :
    Progress :=
  let (present, e, host) := ensureAccount f policy (provisionSite r) p.host
  ⟨p.syncErr.or e, host, { p.result with
    applied := if present then p.result.applied + 1 else p.result.applied
    accounts := p.result.accounts ++ [⟨r.userID, r.systemUser, present⟩] }⟩

structure System where
  host : Host
  file : StateFile

def sync (T : CaseTable) (policy : AccountPolicy) (call : SyncCall) (sys : System) :
    Result × Option Failure × System :=
  match loadState call.readable sys.file with
  | .error e => ({}, some e, sys)
  | .ok current =>
    let want := desired T policy call.users
    let (groupErr, host) := ensureGroup call.faults sys.host
    let p := (call.currentOrder.visit current).foldl (revokeOne call.faults policy want)
      ⟨groupErr, host, {}⟩
    let p := (call.desiredOrder.visit want.toList).foldl (provisionOne call.faults policy) p
    let (saveErr, file) := saveState call.save want.toList sys.file
    (p.result, p.syncErr.or saveErr, ⟨p.host, file⟩)

/-! ## The wanted accounts -/

theorem mem_foldl_upsert (T : CaseTable) (policy : AccountPolicy) (users : List AccessUser)
    (t : Table ManagedAccount) (q : ManagedAccount)
    (h : q ∈ users.foldl (fun t user => t.upsert (managed T policy user)) t) :
    q ∈ t ∨ ∃ u ∈ users, q = managed T policy u := by
  induction users generalizing t with
  | nil => exact .inl h
  | cons u users ih =>
    obtain hq | ⟨v, hv, hq⟩ := ih _ h
    · obtain hq | ⟨hq, _⟩ := (Table.mem_upsert _ _ _).mp hq
      · exact .inr ⟨u, List.mem_cons_self, hq⟩
      · exact .inl hq
    · exact .inr ⟨v, List.mem_cons_of_mem u hv, hq⟩

theorem find_foldl_upsert (T : CaseTable) (policy : AccountPolicy) (users : List AccessUser)
    (t : Table ManagedAccount) (i : Int)
    (h : (t.find i).isSome = true ∨ ∃ u ∈ users, u.userID = i) :
    ((users.foldl (fun t user => t.upsert (managed T policy user)) t).find i).isSome = true := by
  induction users generalizing t with
  | nil => simpa using h
  | cons u users ih =>
    apply ih
    rw [Table.find_upsert]
    by_cases hu : u.userID = i
    · left
      rw [if_pos (show Keyed.key (managed T policy u) = i from hu)]
      rfl
    · rw [if_neg (show Keyed.key (managed T policy u) ≠ i from hu)]
      obtain h | ⟨v, hv, hvi⟩ := h
      · exact .inl h
      · obtain rfl | hv := List.mem_cons.mp hv
        · exact absurd hvi hu
        · exact .inr ⟨v, hv, hvi⟩

theorem mem_desired {T : CaseTable} {policy : AccountPolicy} {users : List AccessUser}
    {q : ManagedAccount} (h : q ∈ desired T policy users) : ∃ u ∈ users, q = managed T policy u := by
  obtain hq | hq := mem_foldl_upsert T policy users .empty q h
  · exact absurd hq (Table.not_mem_empty q)
  · exact hq

/-- A user id is wanted exactly when a user of the list has it. -/
theorem find_desired (T : CaseTable) (policy : AccountPolicy) (users : List AccessUser) (i : Int) :
    ((desired T policy users).find i).isSome = true ↔ ∃ u ∈ users, u.userID = i := by
  constructor
  · intro h
    obtain ⟨q, hq⟩ := Option.isSome_iff_exists.mp h
    obtain ⟨hq, hi⟩ := (Table.find_eq_some _ _ _).mp hq
    obtain ⟨u, hu, rfl⟩ := mem_desired hq
    exact ⟨u, hu, hi⟩
  · exact fun h => find_foldl_upsert T policy users .empty i (.inr h)

/-! ## The revocation loop -/

/-- The revocation of the record gets as far as locking the account. -/
def Locks (f : Faults) (r : ManagedAccount) : Prop :=
  f (revokeSite r) .id = .ok ∧ f (revokeSite r) .lock = .ok

/-- The revocation of the record expires the account. -/
def Expires (f : Faults) (r : ManagedAccount) : Prop :=
  Locks f r ∧ f (revokeSite r) .expire = .ok

theorem keysCleared_flags (f : Faults) (s : Site) (a : Account) :
    (keysCleared f s a).locked = a.locked ∧ (keysCleared f s a).expired = a.expired := by
  unfold keysCleared
  split <;> exact ⟨rfl, rfl⟩

theorem revoked_flags {f : Faults} {policy : AccountPolicy} (hp : policy.lockOnRevoke = true)
    (r : ManagedAccount) (a : Account) :
    ((revoked f policy (revokeSite r) a).locked = true ↔ a.locked = true ∨ Locks f r) ∧
    ((revoked f policy (revokeSite r) a).expired = true ↔ a.expired = true ∨ Expires f r) := by
  unfold revoked Expires Locks
  by_cases hid : f (revokeSite r) .id = .ok
  · obtain ⟨hl, he⟩ := keysCleared_flags f (revokeSite r) (disabled f (revokeSite r) a)
    rw [if_pos hid, if_pos hp, hl, he]
    by_cases hlock : f (revokeSite r) .lock = .ok
    · simp [disabled, hid, hlock]
    · simp [disabled, hid, hlock]
  · simp [hid]

/-- The loop revokes the record, and its account is `x`. -/
def Stale (want : Table ManagedAccount) (x : Name) (r : ManagedAccount) : Prop :=
  r.systemUser = x ∧ want.find r.userID = none

/-- From the account before to the account after: nothing is unlocked or given back
its expiry, and `lock` and `expire` say what is locked and expired in addition. -/
def Retires (lock expire : Prop) (a b : Option Account) : Prop :=
  (b = none ↔ a = none) ∧ ∀ o, a = some o → ∃ o', b = some o' ∧
    (o'.locked = true ↔ o.locked = true ∨ lock) ∧ (o'.expired = true ↔ o.expired = true ∨ expire)

theorem Retires.trans {l₁ l₂ e₁ e₂ : Prop} {a b c : Option Account} (h : Retires l₁ e₁ a b)
    (h' : Retires l₂ e₂ b c) : Retires (l₁ ∨ l₂) (e₁ ∨ e₂) a c := by
  refine ⟨h'.1.trans h.1, fun o ho => ?_⟩
  obtain ⟨o₁, h₁, hl₁, he₁⟩ := h.2 o ho
  obtain ⟨o₂, h₂, hl₂, he₂⟩ := h'.2 o₁ h₁
  exact ⟨o₂, h₂, by rw [hl₂, hl₁, or_assoc], by rw [he₂, he₁, or_assoc]⟩

theorem Retires.same {l e : Prop} (a : Option Account) (hl : ¬ l) (he : ¬ e) : Retires l e a a :=
  ⟨Iff.rfl, fun o ho => ⟨o, ho, by simp [hl], by simp [he]⟩⟩

theorem revokeOne_accounts {f : Faults} {policy : AccountPolicy} (hp : policy.lockOnRevoke = true)
    (want : Table ManagedAccount) (p : Progress) (r : ManagedAccount) (x : Name) :
    Retires (Stale want x r ∧ Locks f r) (Stale want x r ∧ Expires f r)
      (p.host.accounts x) ((revokeOne f policy want p r).host.accounts x) := by
  unfold revokeOne
  by_cases hw : (want.find r.userID).isSome = true
  · have hs : ¬ Stale want x r := by
      intro hs
      rw [hs.2] at hw
      exact absurd hw (by decide)
    rw [if_pos hw]
    exact Retires.same _ (fun h => hs h.1) (fun h => hs h.1)
  · have hn : want.find r.userID = none := by simpa using hw
    simp only [if_neg hw, revokeUser_accounts]
    by_cases hx : x = r.systemUser
    · have hs : Stale want x r := ⟨hx.symm, hn⟩
      rw [if_pos (show x = (revokeSite r).account from hx)]
      refine ⟨by simp, fun o ho => ⟨revoked f policy (revokeSite r) o, by simp [ho], ?_⟩⟩
      obtain ⟨hl, he⟩ := revoked_flags (f := f) hp r o
      exact ⟨by simp [hl, hs], by simp [he, hs]⟩
    · have hs : ¬ Stale want x r := fun hs => hx hs.1.symm
      rw [if_neg (show x ≠ (revokeSite r).account from hx)]
      exact Retires.same _ (fun h => hs h.1) (fun h => hs h.1)

/-- After the loop an account is locked or expired if it was before or a revocation
of one of its stale records got that far. -/
theorem revoke_loop {f : Faults} {policy : AccountPolicy} (hp : policy.lockOnRevoke = true)
    (want : Table ManagedAccount) (l : List ManagedAccount) (p : Progress) (x : Name) :
    Retires (∃ r ∈ l, Stale want x r ∧ Locks f r) (∃ r ∈ l, Stale want x r ∧ Expires f r)
      (p.host.accounts x) ((l.foldl (revokeOne f policy want) p).host.accounts x) := by
  induction l generalizing p with
  | nil => exact Retires.same _ (by simp) (by simp)
  | cons r l ih =>
    simp only [List.exists_mem_cons_iff, List.foldl_cons]
    exact (revokeOne_accounts hp want p r x).trans (ih _)

theorem revoke_loop_group (f : Faults) (policy : AccountPolicy) (want : Table ManagedAccount)
    (l : List ManagedAccount) (p : Progress) :
    (l.foldl (revokeOne f policy want) p).host.group = p.host.group ∧
    (l.foldl (revokeOne f policy want) p).result.accounts = p.result.accounts := by
  induction l generalizing p with
  | nil => exact ⟨rfl, rfl⟩
  | cons r l ih =>
    obtain ⟨hg, ha⟩ := ih (revokeOne f policy want p r)
    rw [List.foldl_cons, hg, ha]
    unfold revokeOne
    split
    · exact ⟨rfl, rfl⟩
    · exact ⟨revokeUser_group f policy (revokeSite r) p.host, rfl⟩

/-! ## The provisioning loop -/

theorem provisionOne_frame (f : Faults) (policy : AccountPolicy) (p : Progress)
    (r : ManagedAccount) :
    (provisionOne f policy p r).host.group = p.host.group ∧
    (∀ y, y ≠ r.systemUser → (provisionOne f policy p r).host.accounts y = p.host.accounts y) ∧
    (∀ y, (p.host.accounts y).isSome → ((provisionOne f policy p r).host.accounts y).isSome) :=
  have h := ensureAccount_frame f policy (provisionSite r) p.host
  ⟨h.1, h.2.1, h.2.2.1⟩

/-- An account no record names is left alone, none is removed, and each report is
about a record; an account reported present is there at the end. -/
theorem provision_loop (f : Faults) (policy : AccountPolicy) (l : List ManagedAccount)
    (p : Progress) :
    (∀ y, (∀ r ∈ l, r.systemUser ≠ y) →
      (l.foldl (provisionOne f policy) p).host.accounts y = p.host.accounts y) ∧
    (∀ y, (p.host.accounts y).isSome →
      ((l.foldl (provisionOne f policy) p).host.accounts y).isSome) ∧
    (∀ o ∈ (l.foldl (provisionOne f policy) p).result.accounts, o ∈ p.result.accounts ∨
      (⟨o.userID, o.systemUser⟩ ∈ l ∧ (o.present = true →
        ((l.foldl (provisionOne f policy) p).host.accounts o.systemUser).isSome))) := by
  induction l generalizing p with
  | nil => exact ⟨fun _ _ => rfl, fun _ h => h, fun o ho => .inl ho⟩
  | cons r l ih =>
    obtain ⟨ihsame, ihsome, ihrep⟩ := ih (provisionOne f policy p r)
    obtain ⟨_, hsame, hsome⟩ := provisionOne_frame f policy p r
    rw [List.foldl_cons]
    refine ⟨?_, fun y hy => ihsome y (hsome y hy), ?_⟩
    · intro y hy
      rw [ihsame y fun q hq => hy q (List.mem_cons_of_mem r hq),
        hsame y fun he => hy r List.mem_cons_self he.symm]
    · intro o ho
      obtain ho | ⟨ho, hpres⟩ := ihrep o ho
      · obtain ho | ho := List.mem_append.mp ho
        · exact .inl ho
        · right
          obtain rfl := List.mem_singleton.mp ho
          refine ⟨List.mem_cons_self, fun hp => ihsome _ ?_⟩
          exact (ensureAccount_frame f policy (provisionSite r) p.host).2.2.2 hp
      · exact .inr ⟨List.mem_cons_of_mem r ho, hpres⟩

/-- Without failures every account a record names is reported present and enabled,
and what was enabled stays so. -/
theorem provision_loop_noFaults (policy : AccountPolicy) (l : List ManagedAccount) (p : Progress)
    (hg : p.host.group = true) :
    (∀ x, Enabled p.host x → Enabled (l.foldl (provisionOne noFaults policy) p).host x) ∧
    (∀ r ∈ l, Enabled (l.foldl (provisionOne noFaults policy) p).host r.systemUser) ∧
    (∀ o ∈ p.result.accounts, o ∈ (l.foldl (provisionOne noFaults policy) p).result.accounts) ∧
    ∀ r ∈ l, ⟨r.userID, r.systemUser, true⟩ ∈
      (l.foldl (provisionOne noFaults policy) p).result.accounts := by
  induction l generalizing p with
  | nil => exact ⟨fun _ h => h, by simp, fun _ h => h, by simp⟩
  | cons r l ih =>
    obtain ⟨hpres, hen⟩ := ensureAccount_noFaults policy (provisionSite r) p.host hg
    obtain ⟨hgroup, hsame, _⟩ := provisionOne_frame noFaults policy p r
    have hone : ∀ x, Enabled p.host x → Enabled (provisionOne noFaults policy p r).host x := by
      intro x hx
      by_cases he : x = r.systemUser
      · subst he; exact hen
      · unfold Enabled
        rw [hsame x he]
        exact hx
    have hrep : ⟨r.userID, r.systemUser, true⟩ ∈ (provisionOne noFaults policy p r).result.accounts := by
      simp only [provisionOne, hpres]
      exact List.mem_append_right _ List.mem_cons_self
    have hkeep : ∀ o ∈ p.result.accounts, o ∈ (provisionOne noFaults policy p r).result.accounts :=
      fun o ho => List.mem_append_left _ ho
    obtain ⟨ihen, ihall, ihkeep, ihrep⟩ := ih (provisionOne noFaults policy p r) (hgroup.trans hg)
    rw [List.foldl_cons]
    refine ⟨fun x hx => ihen x (hone x hx), ?_, fun o ho => ihkeep o (hkeep o ho), ?_⟩
    · intro q hq
      obtain rfl | hq := List.mem_cons.mp hq
      · exact ihen _ hen
      · exact ihall q hq
    · intro q hq
      obtain rfl | hq := List.mem_cons.mp hq
      · exact ihkeep _ hrep
      · exact ihrep q hq

/-! ## A call that can read and write its state file -/

/-- The state file is read and written back. -/
def SyncCall.StateFileOk (call : SyncCall) : Prop := call.readable = true ∧ call.save = .ok

theorem loadState_ok {file : StateFile} (h : file ≠ .torn) :
    loadState true file = .ok file.users := by
  cases file with
  | absent => rfl
  | torn => exact absurd rfl h
  | saved users => rfl

/-- What one call does to the accounts it does not want, which accounts it reports,
and what it leaves in the state file. -/
theorem sync_spec (T : CaseTable) {policy : AccountPolicy} (hp : policy.lockOnRevoke = true)
    {call : SyncCall} (hio : call.StateFileOk) {sys : System} (hfile : sys.file ≠ .torn) :
    (sync T policy call sys).2.2.file = .saved (desired T policy call.users).toList ∧
    (∀ x, (∀ q ∈ desired T policy call.users, q.systemUser ≠ x) →
      Retires
        (∃ r ∈ sys.file.users, Stale (desired T policy call.users) x r ∧ Locks call.faults r)
        (∃ r ∈ sys.file.users, Stale (desired T policy call.users) x r ∧ Expires call.faults r)
        (sys.host.accounts x) ((sync T policy call sys).2.2.host.accounts x)) ∧
    (∀ x, (sys.host.accounts x).isSome → ((sync T policy call sys).2.2.host.accounts x).isSome) ∧
    ∀ o ∈ (sync T policy call sys).1.accounts,
      (⟨o.userID, o.systemUser⟩ : ManagedAccount) ∈ desired T policy call.users ∧
      (o.present = true → ((sync T policy call sys).2.2.host.accounts o.systemUser).isSome) := by
  obtain ⟨hread, hsave⟩ := hio
  let want := desired T policy call.users
  let l₁ := call.currentOrder.visit sys.file.users
  let l₂ := call.desiredOrder.visit want.toList
  let p₀ : Progress := ⟨(ensureGroup call.faults sys.host).1, (ensureGroup call.faults sys.host).2, {}⟩
  let p₁ := l₁.foldl (revokeOne call.faults policy want) p₀
  let p₂ := l₂.foldl (provisionOne call.faults policy) p₁
  have hsync : sync T policy call sys =
      (p₂.result, p₂.syncErr.or none, ⟨p₂.host, .saved want.toList⟩) := by
    unfold sync
    rw [hread, loadState_ok hfile, hsave]
    rfl
  have hrev : ∀ x, Retires (∃ r ∈ sys.file.users, Stale want x r ∧ Locks call.faults r)
      (∃ r ∈ sys.file.users, Stale want x r ∧ Expires call.faults r)
      (sys.host.accounts x) (p₁.host.accounts x) := by
    intro x
    have h := revoke_loop hp (f := call.faults) want l₁ p₀ x
    simpa only [l₁, Iteration.mem_visit, p₀, ensureGroup_accounts] using h
  have hres : p₁.result.accounts = [] := (revoke_loop_group call.faults policy want l₁ p₀).2
  obtain ⟨hsame, hsome, hrep⟩ := provision_loop call.faults policy l₂ p₁
  rw [hsync]
  refine ⟨rfl, ?_, ?_, ?_⟩
  · intro x hx
    have hp₂ : p₂.host.accounts x = p₁.host.accounts x :=
      hsame x fun r hr => hx r ((Iteration.mem_visit _ _ r).mp hr)
    change Retires _ _ _ (p₂.host.accounts x)
    rw [hp₂]
    exact hrev x
  · intro x hx
    apply hsome
    rw [Option.isSome_iff_ne_none] at hx ⊢
    exact fun hn => hx ((hrev x).1.mp hn)
  · intro o ho
    obtain h | ⟨hl, hpres⟩ := hrep o ho
    · rw [hres] at h
      exact absurd h List.not_mem_nil
    · exact ⟨(Iteration.mem_visit _ _ _).mp hl, hpres⟩

/-- Without failures every wanted account is reported present and is enabled. -/
theorem sync_noFaults (T : CaseTable) (policy : AccountPolicy) {call : SyncCall}
    (hf : call.faults = noFaults) (hio : call.StateFileOk) {sys : System} (hfile : sys.file ≠ .torn) :
    ∀ q ∈ desired T policy call.users,
      Enabled (sync T policy call sys).2.2.host q.systemUser ∧
      ⟨q.userID, q.systemUser, true⟩ ∈ (sync T policy call sys).1.accounts := by
  obtain ⟨hread, hsave⟩ := hio
  intro q hq
  let want := desired T policy call.users
  let p₀ : Progress := ⟨(ensureGroup noFaults sys.host).1, (ensureGroup noFaults sys.host).2, {}⟩
  let p₁ := (call.currentOrder.visit sys.file.users).foldl (revokeOne noFaults policy want) p₀
  have hsync : sync T policy call sys =
      let p₂ := (call.desiredOrder.visit want.toList).foldl (provisionOne noFaults policy) p₁
      (p₂.result, p₂.syncErr.or none, ⟨p₂.host, .saved want.toList⟩) := by
    unfold sync
    rw [hread, loadState_ok hfile, hsave, hf]
    rfl
  have hgroup : p₁.host.group = true := by
    rw [(revoke_loop_group noFaults policy want _ p₀).1]
    exact ensureGroup_noFaults sys.host
  obtain ⟨_, hen, _, hrep⟩ :=
    provision_loop_noFaults policy (call.desiredOrder.visit want.toList) p₁ hgroup
  have hmem : q ∈ call.desiredOrder.visit want.toList := (Iteration.mem_visit _ _ q).mpr hq
  rw [hsync]
  exact ⟨hen q hmem, hrep q hmem⟩

/-! ## Runs of calls -/

/-- The system with the accounts ever reported present and the latest user list. -/
structure World where
  system : System
  provisioned : List ReportAccount
  latest : List AccessUser

def step (T : CaseTable) (policy : AccountPolicy) (w : World) (call : SyncCall) : World where
  system := (sync T policy call w.system).2.2
  provisioned := w.provisioned ++
    (sync T policy call w.system).1.accounts.filter ReportAccount.present
  latest := call.users

/-- A host on which no synchronisation has run. -/
def start (host : Host) : World := ⟨⟨host, .absent⟩, [], []⟩

/-- The account is in the state file, under whichever user id. -/
def Recorded (sys : System) (x : Name) : Prop := ∃ r ∈ sys.file.users, r.systemUser = x

/-- The account belongs to a user of the list. -/
def Wanted (T : CaseTable) (policy : AccountPolicy) (users : List AccessUser) (x : Name) : Prop :=
  ∃ q ∈ desired T policy users, q.systemUser = x

theorem mem_provisioned_step (T : CaseTable) (policy : AccountPolicy) (w : World) (call : SyncCall)
    (o : ReportAccount) : o ∈ (step T policy w call).provisioned ↔ o ∈ w.provisioned ∨
      (o ∈ (sync T policy call w.system).1.accounts ∧ o.present = true) := by
  rw [step, List.mem_append, List.mem_filter]

/-- What holds of every state reached while the state file can be read and written:
it records the latest list, and what was provisioned is there. -/
structure Consistent (T : CaseTable) (policy : AccountPolicy) (w : World) : Prop where
  file_ne : w.system.file ≠ .torn
  recorded : ∀ q, q ∈ w.system.file.users ↔ q ∈ desired T policy w.latest
  present : ∀ o ∈ w.provisioned, (w.system.host.accounts o.systemUser).isSome

theorem start_consistent (T : CaseTable) (policy : AccountPolicy) (host : Host) :
    Consistent T policy (start host) :=
  ⟨by simp [start], fun q => by simp [start, StateFile.users, desired], by simp [start]⟩

theorem step_consistent {T : CaseTable} {policy : AccountPolicy} (hp : policy.lockOnRevoke = true)
    {w : World} {call : SyncCall} (hio : call.StateFileOk) (h : Consistent T policy w) :
    Consistent T policy (step T policy w call) := by
  obtain ⟨hfile, _, hsome, hrep⟩ := sync_spec T hp hio h.file_ne
  refine ⟨?_, ?_, ?_⟩
  · change (sync T policy call w.system).2.2.file ≠ .torn
    rw [hfile]
    simp
  · intro q
    change q ∈ (sync T policy call w.system).2.2.file.users ↔ _
    rw [hfile]
    rfl
  · intro o ho
    obtain ho | ⟨ho, hpres⟩ := (mem_provisioned_step T policy w call o).mp ho
    · exact hsome _ (h.present o ho)
    · exact (hrep o ho).2 hpres

theorem recorded_iff {T : CaseTable} {policy : AccountPolicy} {w : World}
    (h : Consistent T policy w) (x : Name) :
    Recorded w.system x ↔ Wanted T policy w.latest x := by
  unfold Recorded Wanted
  simp only [h.recorded]

end Keywarden.AgentSync
