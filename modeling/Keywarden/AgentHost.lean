import Mathlib.Data.List.Basic
import Keywarden.Text

/-!
# The host of the agent

`agent/internal/accounts/sync.go` up to the loop: the accounts and the group of
the host, the external commands that change them, and the functions that call
these for one account. A command can exit with an error, fail to start, or run;
a command that does not run leaves the host as it was, and so does one that the
host refuses. Each function changes its own account only, by a function of that
account which the outcomes of its commands determine, and the file of authorized
keys that the path below its home directory leads to, which other homes may share.
-/
namespace Keywarden.AgentHost

open Text

abbrev Name := List Char

/-- `config.AccountPolicy`, the fields the synchronisation reads. -/
structure AccountPolicy where
  usernameTemplate : List Char
  defaultShell : List Char
  createHome : Bool
  lockOnRevoke : Bool
  deriving DecidableEq, Repr

/-- A line of `/etc/passwd` with what the commands change. `inGroup` is membership
in the group `keywarden`, `homeExists` says that the directory has been made for
this account. -/
structure Account where
  home : List Char
  homeExists : Bool
  shell : List Char
  inGroup : Bool
  locked : Bool
  expired : Bool
  deriving DecidableEq, Repr

/-- `keysFile` is the file that `.ssh/authorized_keys` below a home directory leads
to, links followed, and `authorizedKeys` the content of such a file once it exists.
Several homes may lead to one file. -/
@[ext]
structure Host where
  accounts : Name → Option Account
  group : Bool
  keysFile : List Char → List Char := fun home => home ++ "/.ssh/authorized_keys".toList
  authorizedKeys : List Char → Option (List Char) := fun _ => none

inductive Outcome where
  | ok | exit | noexec
  deriving DecidableEq, Repr

/-- The external commands and file accesses, `lock` to `expire` being forms of
`usermod` and `chage`. -/
inductive Command where
  | scanGroup | groupadd
  | id | useradd | joinGroup | lock | setShell | clearExpiry | expire
  | readPasswd | authorizedKeys
  deriving DecidableEq, Repr

/-- The part of the synchronisation that runs a command. -/
inductive Phase where
  | group | revoke | provision
  deriving DecidableEq, Repr

/-- Where a command is run: for which record, on which account. -/
structure Site where
  phase : Phase
  userID : Int
  account : Name
  deriving DecidableEq, Repr

/-- How every command of one synchronisation ends. -/
abbrev Faults := Site → Command → Outcome

/-- An `error` of the agent: what was attempted, and on which account or group. -/
structure Failure where
  context : String
  subject : Name
  deriving DecidableEq, Repr

/-- A function that returns an `error`: the error, if any, and the host it leaves. -/
abbrev Proc := Host → Option Failure × Host

/-- `if err := p(); err != nil { return err }; return q()`. -/
def Proc.andThen (p q : Proc) : Proc := fun h =>
  match p h with
  | (none, h') => q h'
  | (some e, h') => (some e, h')

def Host.adjust (h : Host) (x : Name) (g : Account → Account) : Host :=
  { h with accounts := fun y => if y = x then (h.accounts y).map g else h.accounts y }

def Host.writeKeys (h : Host) (home content : List Char) : Host :=
  { h with
    authorizedKeys := fun p => if p = h.keysFile home then some content else h.authorizedKeys p }

/-- A command that changes an account. It fails if there is no such account. -/
def onAccount (f : Faults) (s : Site) (c : Command) (context : String)
    (g : Account → Account) : Proc := fun h =>
  if f s c = .ok ∧ (h.accounts s.account).isSome then (none, h.adjust s.account g)
  else (some ⟨context, s.account⟩, h)

def keywardenGroup : Name := "keywarden".toList

/-- `error` when `id` could not be run at all; any exit status means no. -/
def userExists (f : Faults) (s : Site) (h : Host) : Except Failure Bool :=
  match f s .id with
  | .noexec => .error ⟨"id", s.account⟩
  | .exit => .ok false
  | .ok => .ok (h.accounts s.account).isSome

def lock (f : Faults) (s : Site) : Proc :=
  onAccount f s .lock "lock account" fun a => { a with locked := true }

def expireAccount (f : Faults) (s : Site) : Proc :=
  onAccount f s .expire "expire account" fun a => { a with expired := true }

def disableAccount (f : Faults) (s : Site) : Proc := (lock f s).andThen (expireAccount f s)

/-- `unicode.IsSpace`, which `strings.TrimSpace` goes by. -/
def goSpace (c : Char) : Bool :=
  let n := c.toNat
  (9 ≤ n && n ≤ 13) || n == 32 || n == 0x85 || n == 0xA0 || n == 0x1680 ||
    (0x2000 ≤ n && n ≤ 0x200A) || n == 0x2028 || n == 0x2029 || n == 0x202F || n == 0x205F ||
    n == 0x3000

def keysPayload (keys : List (List Char)) : List Char :=
  let payload := strip goSpace (List.intercalate ['\n'] keys)
  if payload ≠ [] then payload ++ ['\n'] else payload

/-- `lookupUser` and the writes below the home directory it finds; the steps
`MkdirAll` to `Chown` succeed or fail as one. -/
def writeAuthorizedKeys (f : Faults) (s : Site) (keys : List (List Char)) : Proc := fun h =>
  if f s .readPasswd ≠ .ok then (some ⟨"open passwd", s.account⟩, h)
  else match h.accounts s.account with
    | none => (some ⟨"user not found", s.account⟩, h)
    | some a =>
      if a.home = [] then (some ⟨"missing home dir for", s.account⟩, h)
      else if f s .authorizedKeys ≠ .ok then (some ⟨"write authorized keys", s.account⟩, h)
      else (none, (h.adjust s.account fun a => { a with homeExists := true }).writeKeys a.home
        (keysPayload keys))

/-- An error of `disableAccount` is kept, and the authorized keys are written all
the same. -/
def revokeUser (f : Faults) (policy : AccountPolicy) (s : Site) : Proc := fun h =>
  match userExists f s h with
  | .error e => (some e, h)
  | .ok false => (none, h)
  | .ok true =>
    let (revokeErr, h) := if policy.lockOnRevoke then disableAccount f s h else (none, h)
    let (keysErr, h) := writeAuthorizedKeys f s [] h
    (revokeErr.or keysErr, h)

def groupSite : Site := ⟨.group, 0, keywardenGroup⟩

def ensureGroup (f : Faults) : Proc := fun h =>
  if f groupSite .scanGroup ≠ .ok then (some ⟨"open group file", keywardenGroup⟩, h)
  else if h.group then (none, h)
  else if f groupSite .groupadd ≠ .ok then (some ⟨"groupadd", keywardenGroup⟩, h)
  else (none, { h with group := true })

def newHome (x : Name) : List Char := "/home/".toList ++ x

/-- The line `useradd` writes: a locked password, no expiry. -/
def newAccount (policy : AccountPolicy) (x : Name) : Account where
  home := newHome x
  homeExists := policy.createHome
  shell := if policy.defaultShell ≠ [] then policy.defaultShell else "/bin/sh".toList
  inGroup := true
  locked := true
  expired := false

def createUser (f : Faults) (policy : AccountPolicy) (s : Site) : Proc := fun h =>
  if f s .useradd = .ok ∧ h.accounts s.account = none ∧ h.group then
    (none, { h with
      accounts := fun y => if y = s.account then some (newAccount policy y) else h.accounts y })
  else (some ⟨"useradd", s.account⟩, h)

def ensureGroupMembership (f : Faults) (s : Site) : Proc := fun h =>
  if h.group then onAccount f s .joinGroup "usermod add" (fun a => { a with inGroup := true }) h
  else (some ⟨"usermod add", s.account⟩, h)

def setShell (f : Faults) (policy : AccountPolicy) (s : Site) : Proc := fun h =>
  if policy.defaultShell ≠ [] then
    onAccount f s .setShell "set shell" (fun a => { a with shell := policy.defaultShell }) h
  else (none, h)

def clearExpiry (f : Faults) (s : Site) : Proc :=
  onAccount f s .clearExpiry "clear expiry" fun a => { a with expired := false }

def enforceCertificateOnly (f : Faults) (policy : AccountPolicy) (s : Site) : Proc :=
  (lock f s).andThen ((setShell f policy s).andThen (clearExpiry f s))

/-- What `ensureAccount` does once the account is there. -/
def configureAccount (f : Faults) (policy : AccountPolicy) (s : Site) : Proc :=
  (ensureGroupMembership f s).andThen
    ((enforceCertificateOnly f policy s).andThen (writeAuthorizedKeys f s []))

/-- The first component says whether the account is present. -/
def ensureAccount (f : Faults) (policy : AccountPolicy) (s : Site) (h : Host) :
    Bool × Option Failure × Host :=
  match userExists f s h with
  | .error e => (false, some e, h)
  | .ok found =>
    match if found then (none, h) else createUser f policy s h with
    | (some e, h) => (false, some e, h)
    | (none, h) => (true, configureAccount f policy s h)

/-! ## What the commands change -/

theorem adjust_accounts (h : Host) (x y : Name) (g : Account → Account) :
    (h.adjust x g).accounts y = if y = x then (h.accounts y).map g else h.accounts y := rfl

@[simp] theorem adjust_group (h : Host) (x : Name) (g : Account → Account) :
    (h.adjust x g).group = h.group := rfl

@[simp] theorem adjust_keysFile (h : Host) (x : Name) (g : Account → Account) :
    (h.adjust x g).keysFile = h.keysFile := rfl

@[simp] theorem adjust_authorizedKeys (h : Host) (x : Name) (g : Account → Account) :
    (h.adjust x g).authorizedKeys = h.authorizedKeys := rfl

theorem adjust_adjust (h : Host) (x : Name) (g g' : Account → Account) :
    (h.adjust x g).adjust x g' = h.adjust x (fun a => g' (g a)) := by
  ext1
  · funext y
    by_cases hy : y = x <;> simp [adjust_accounts, hy, Function.comp_def]
  · rfl
  · rfl
  · rfl

theorem adjust_congr (h : Host) (x : Name) {g g' : Account → Account}
    (hg : ∀ a, h.accounts x = some a → g a = g' a) : h.adjust x g = h.adjust x g' := by
  ext1
  · funext y
    by_cases hy : y = x
    · subst hy
      cases ha : h.accounts y with
      | none => simp [adjust_accounts, ha]
      | some a => simp [adjust_accounts, ha, hg a ha]
    · simp [adjust_accounts, hy]
  · rfl
  · rfl
  · rfl

theorem adjust_fixed (h : Host) (x : Name) {g : Account → Account}
    (hg : ∀ a, h.accounts x = some a → g a = a) : h.adjust x g = h := by
  rw [adjust_congr h x hg]
  ext1
  · funext y
    simp [adjust_accounts]
  · rfl
  · rfl
  · rfl

/-- Nothing happens to an account that does not exist. -/
theorem adjust_of_none (h : Host) (x : Name) (g : Account → Account) (hx : h.accounts x = none) :
    h.adjust x g = h := by
  apply adjust_fixed
  intro a ha
  rw [hx] at ha
  cases ha

@[simp] theorem isSome_adjust (h : Host) (x y : Name) (g : Account → Account) :
    ((h.adjust x g).accounts y).isSome = (h.accounts y).isSome := by
  by_cases hy : y = x <;> simp [adjust_accounts, hy]

/-- What a command on an account leaves, whether or not it runs. -/
theorem onAccount_host (f : Faults) (s : Site) (c : Command) (context : String)
    (g : Account → Account) (h : Host) :
    (onAccount f s c context g h).2 = h.adjust s.account fun a => if f s c = .ok then g a else a := by
  unfold onAccount
  by_cases hx : h.accounts s.account = none
  · simp [hx, adjust_of_none]
  · have hs : (h.accounts s.account).isSome := Option.isSome_iff_ne_none.mpr hx
    by_cases hf : f s c = .ok
    · simp [hf, hs]
    · simp [hf, adjust_fixed]

theorem onAccount_ok (f : Faults) (s : Site) (c : Command) (context : String)
    (g : Account → Account) (h : Host) :
    (onAccount f s c context g h).1 = none ↔
      f s c = .ok ∧ (h.accounts s.account).isSome = true := by
  unfold onAccount
  split <;> simp_all

/-- `usermod -L`, and `chage -E 0` only if the lock went through. -/
def disabled (f : Faults) (s : Site) (a : Account) : Account :=
  if f s .lock = .ok then { a with locked := true, expired := a.expired || f s .expire = .ok } else a

theorem disableAccount_host (f : Faults) (s : Site) (h : Host) :
    (disableAccount f s h).2 = h.adjust s.account (disabled f s) := by
  have hlock := onAccount_ok f s .lock "lock account" (fun a => { a with locked := true }) h
  have hhost := onAccount_host f s .lock "lock account" (fun a => { a with locked := true }) h
  unfold disableAccount Proc.andThen lock
  split
  · next h' heq =>
    rw [heq] at hlock hhost
    obtain ⟨hf, _⟩ := hlock.mp rfl
    simp only at hhost
    rw [expireAccount, onAccount_host, hhost, adjust_adjust]
    refine adjust_congr _ _ fun a _ => ?_
    by_cases he : f s .expire = .ok <;> simp [disabled, hf, he]
  · next e h' heq =>
    rw [heq] at hlock hhost
    simp only at hhost
    rw [hhost]
    refine adjust_congr _ _ fun a ha => ?_
    have hf : f s .lock ≠ .ok := by
      intro hf
      have := hlock.mpr ⟨hf, by simp [ha]⟩
      simp at this
    simp [disabled, hf]

/-- Empty authorized keys below a home directory, if there is one to write to. -/
def Host.emptyKeys (h : Host) : Option (List Char) → Host
  | none => h
  | some home => h.writeKeys home []

@[simp] theorem emptyKeys_accounts (h : Host) (home : Option (List Char)) :
    (h.emptyKeys home).accounts = h.accounts := by cases home <;> rfl

@[simp] theorem emptyKeys_group (h : Host) (home : Option (List Char)) :
    (h.emptyKeys home).group = h.group := by cases home <;> rfl

@[simp] theorem emptyKeys_keysFile (h : Host) (home : Option (List Char)) :
    (h.emptyKeys home).keysFile = h.keysFile := by cases home <;> rfl

theorem adjust_emptyKeys (h : Host) (home : Option (List Char)) (x : Name) (g : Account → Account) :
    (h.emptyKeys home).adjust x g = (h.adjust x g).emptyKeys home := by cases home <;> rfl

theorem emptyKeys_authorizedKeys (h : Host) (home : Option (List Char)) (p : List Char) :
    (h.emptyKeys home).authorizedKeys p =
      if ∃ path ∈ home, p = h.keysFile path then some [] else h.authorizedKeys p := by
  cases home with
  | none => simp [Host.emptyKeys]
  | some path => simp [Host.emptyKeys, Host.writeKeys]

theorem emptyKeys_comm (h : Host) (home home' : Option (List Char)) :
    (h.emptyKeys home).emptyKeys home' = (h.emptyKeys home').emptyKeys home := by
  ext1
  · simp
  · simp
  · simp
  · funext p
    simp only [emptyKeys_authorizedKeys, emptyKeys_keysFile]
    split_ifs <;> rfl

/-- Emptying them again does nothing. -/
theorem emptyKeys_again (h : Host) (home : Option (List Char)) :
    (h.emptyKeys home).emptyKeys home = h.emptyKeys home := by
  ext1
  · simp
  · simp
  · simp
  · funext p
    simp only [emptyKeys_authorizedKeys, emptyKeys_keysFile]
    split_ifs <;> rfl

theorem emptyKeys_other (h : Host) {home : Option (List Char)} {p : List Char}
    (hp : ∀ path ∈ home, p ≠ h.keysFile path) :
    (h.emptyKeys home).authorizedKeys p = h.authorizedKeys p := by
  rw [emptyKeys_authorizedKeys, if_neg]
  rintro ⟨path, hpath, he⟩
  exact hp path hpath he

/-- The file below the home directory is written. -/
def Clears (f : Faults) (s : Site) (a : Account) : Prop :=
  f s .readPasswd = .ok ∧ a.home ≠ [] ∧ f s .authorizedKeys = .ok

instance (f : Faults) (s : Site) (a : Account) : Decidable (Clears f s a) := by
  unfold Clears
  infer_instance

def keysCleared (f : Faults) (s : Site) (a : Account) : Account :=
  if Clears f s a then { a with homeExists := true } else a

def clearedHome (f : Faults) (s : Site) (a : Account) : Option (List Char) :=
  if Clears f s a then some a.home else none

theorem writeAuthorizedKeys_host (f : Faults) (s : Site) (h : Host) :
    (writeAuthorizedKeys f s [] h).2 = (h.adjust s.account (keysCleared f s)).emptyKeys
      ((h.accounts s.account).bind (clearedHome f s)) := by
  have hsame : ∀ {a}, h.accounts s.account = some a → ¬ Clears f s a →
      h = (h.adjust s.account (keysCleared f s)).emptyKeys
        ((h.accounts s.account).bind (clearedHome f s)) := by
    intro a ha hnot
    rw [ha, Option.bind_some, clearedHome, if_neg hnot]
    refine (adjust_fixed _ _ fun b hb => ?_).symm
    rw [ha] at hb
    cases hb
    exact if_neg hnot
  unfold writeAuthorizedKeys
  cases ha : h.accounts s.account with
  | none =>
    split
    · exact (adjust_of_none _ _ _ ha).symm
    · exact (adjust_of_none _ _ _ ha).symm
  | some a =>
    rw [← ha]
    by_cases hp : f s .readPasswd = .ok
    · rw [if_neg (by simp [hp])]
      by_cases hh : a.home = []
      · rw [ha]
        simp only [if_pos hh]
        rw [← ha]
        exact hsame ha fun hc => hc.2.1 hh
      · by_cases hf : f s .authorizedKeys = .ok
        · have hclears : Clears f s a := ⟨hp, hh, hf⟩
          rw [ha]
          simp only [if_neg hh, hf, ne_eq, not_true_eq_false, if_false, Option.bind_some, clearedHome,
            if_pos hclears, Host.emptyKeys]
          congr 1
          refine adjust_congr _ _ fun b hb => ?_
          rw [ha] at hb
          cases hb
          exact (if_pos hclears).symm
        · rw [ha]
          simp only [if_neg hh, ne_eq, hf, not_false_eq_true, if_true]
          rw [← ha]
          exact hsame ha fun hc => hf hc.2.2
    · rw [if_pos hp]
      exact hsame ha fun hc => hp hc.1

/-- The account after `revokeUser`. -/
def revoked (f : Faults) (policy : AccountPolicy) (s : Site) (a : Account) : Account :=
  if f s .id = .ok then keysCleared f s (if policy.lockOnRevoke then disabled f s a else a) else a

def revokedHome (f : Faults) (s : Site) (a : Account) : Option (List Char) :=
  if f s .id = .ok then clearedHome f s a else none

theorem disabled_home (f : Faults) (s : Site) (a : Account) : (disabled f s a).home = a.home := by
  unfold disabled
  split <;> rfl

theorem keysCleared_home (f : Faults) (s : Site) (a : Account) : (keysCleared f s a).home = a.home := by
  unfold keysCleared
  split <;> rfl

theorem revoked_home (f : Faults) (policy : AccountPolicy) (s : Site) (a : Account) :
    (revoked f policy s a).home = a.home := by
  unfold revoked
  split
  · rw [keysCleared_home]
    split
    · exact disabled_home f s a
    · rfl
  · rfl

theorem clearedHome_congr (f : Faults) (s : Site) {a b : Account} (h : a.home = b.home) :
    clearedHome f s a = clearedHome f s b := by
  simp only [clearedHome, Clears, h]

theorem revokeUser_host (f : Faults) (policy : AccountPolicy) (s : Site) (h : Host) :
    (revokeUser f policy s h).2 = (h.adjust s.account (revoked f policy s)).emptyKeys
      ((h.accounts s.account).bind (revokedHome f s)) := by
  have hidle : f s .id ≠ .ok → h = (h.adjust s.account (revoked f policy s)).emptyKeys
      ((h.accounts s.account).bind (revokedHome f s)) := by
    intro hid
    have hnone : (h.accounts s.account).bind (revokedHome f s) = none := by
      cases h.accounts s.account with
      | none => rfl
      | some a => exact if_neg hid
    rw [hnone]
    exact (adjust_fixed _ _ fun a _ => if_neg hid).symm
  unfold revokeUser userExists
  cases hid : f s .id with
  | noexec => exact hidle (by simp [hid])
  | exit => exact hidle (by simp [hid])
  | ok =>
    cases ha : h.accounts s.account with
    | none => exact (adjust_of_none _ _ _ ha).symm
    | some a =>
      simp only [Option.isSome_some]
      cases hl : policy.lockOnRevoke with
      | true =>
        simp only [if_true, writeAuthorizedKeys_host, disableAccount_host, adjust_adjust, adjust_accounts,
          ha, Option.map_some, Option.bind_some, revokedHome, hid]
        rw [clearedHome_congr f s (disabled_home f s a)]
        congr 1
        exact adjust_congr _ _ fun b _ => by simp [revoked, hid, hl]
      | false =>
        simp only [Bool.false_eq_true, if_false, writeAuthorizedKeys_host, ha, Option.bind_some,
          revokedHome, hid, if_true]
        congr 1
        exact adjust_congr _ _ fun b _ => by simp [revoked, hid, hl]

theorem revokeUser_accounts (f : Faults) (policy : AccountPolicy) (s : Site) (h : Host) (y : Name) :
    (revokeUser f policy s h).2.accounts y =
      if y = s.account then (h.accounts y).map (revoked f policy s) else h.accounts y := by
  rw [revokeUser_host, emptyKeys_accounts, adjust_accounts]

theorem revokeUser_group (f : Faults) (policy : AccountPolicy) (s : Site) (h : Host) :
    (revokeUser f policy s h).2.group = h.group := by
  rw [revokeUser_host, emptyKeys_group, adjust_group]

theorem ensureGroup_accounts (f : Faults) (h : Host) :
    (ensureGroup f h).2.accounts = h.accounts := by
  unfold ensureGroup
  split_ifs <;> rfl

/-- The home directory of an account, or the one it would be given. -/
def Host.homeOf (h : Host) (x : Name) : List Char :=
  ((h.accounts x).map Account.home).getD (newHome x)

/-- The authorized keys that an ssh server finds for the account. -/
def Host.keysOf (h : Host) (x : Name) : Option (List Char) := h.authorizedKeys (h.keysFile (h.homeOf x))

/-- What work on one account leaves: the other accounts, the group and the home directories
are as they were, no account is removed, and of the files of authorized keys none changes
but the one that the home directory of the account leads to, if it has one. -/
structure Touches (x : Name) (h h' : Host) : Prop where
  group : h'.group = h.group
  keysFile : h'.keysFile = h.keysFile
  others : ∀ y, y ≠ x → h'.accounts y = h.accounts y
  there : (h.accounts x).isSome → (h'.accounts x).isSome
  home : h'.homeOf x = h.homeOf x
  keys : ∀ p, (h.homeOf x ≠ [] → p ≠ h.keysFile (h.homeOf x)) → h'.authorizedKeys p = h.authorizedKeys p

theorem Touches.refl (x : Name) (h : Host) : Touches x h h :=
  ⟨rfl, rfl, fun _ _ => rfl, id, rfl, fun _ _ => rfl⟩

theorem Touches.trans {x : Name} {h h' h'' : Host} (ht : Touches x h h') (ht' : Touches x h' h'') :
    Touches x h h'' := by
  refine ⟨ht'.group.trans ht.group, ht'.keysFile.trans ht.keysFile, fun y hy => ?_, fun hx => ?_,
    ht'.home.trans ht.home, fun p hp => ?_⟩
  · rw [ht'.others y hy, ht.others y hy]
  · exact ht'.there (ht.there hx)
  · rw [ht'.keys p (by rwa [ht.keysFile, ht.home]), ht.keys p hp]

/-- All home directories are as they were. -/
theorem Touches.homeOf {x : Name} {h h' : Host} (ht : Touches x h h') (y : Name) :
    h'.homeOf y = h.homeOf y := by
  by_cases hy : y = x
  · rw [hy]
    exact ht.home
  · unfold Host.homeOf
    rw [ht.others y hy]

theorem Touches.isSome {x : Name} {h h' : Host} (ht : Touches x h h') {y : Name}
    (hy : (h.accounts y).isSome) : (h'.accounts y).isSome := by
  by_cases hx : y = x
  · subst hx
    exact ht.there hy
  · rwa [ht.others y hx]

theorem touches_adjust (h : Host) (x : Name) {g : Account → Account} (hg : ∀ a, (g a).home = a.home) :
    Touches x h (h.adjust x g) := by
  refine ⟨rfl, rfl, fun y hy => ?_, fun hx => ?_, ?_, fun _ _ => rfl⟩
  · rw [adjust_accounts, if_neg hy]
  · rwa [isSome_adjust]
  · unfold Host.homeOf
    rw [adjust_accounts, if_pos rfl]
    cases h.accounts x with
    | none => rfl
    | some a => exact hg a

theorem touches_emptyKeys {h : Host} {x : Name} {home : Option (List Char)}
    (hhome : ∀ path ∈ home, path = h.homeOf x ∧ path ≠ []) : Touches x h (h.emptyKeys home) := by
  refine ⟨by simp, by simp, by simp, by simp, by simp [Host.homeOf], fun p hp => ?_⟩
  refine emptyKeys_other h fun path hpath => ?_
  obtain ⟨rfl, hne⟩ := hhome path hpath
  exact hp hne

/-- The procedure touches the account alone. -/
def Local (x : Name) (p : Proc) : Prop := ∀ h, Touches x h (p h).2

theorem local_nil (x : Name) : Local x fun h => (none, h) := Touches.refl x

theorem local_onAccount (f : Faults) (s : Site) (c : Command) (context : String)
    {g : Account → Account} (hg : ∀ a, (g a).home = a.home) :
    Local s.account (onAccount f s c context g) := by
  intro h
  rw [onAccount_host]
  refine touches_adjust h s.account fun a => ?_
  split
  · exact hg a
  · rfl

theorem local_andThen {x : Name} {p q : Proc} (hp : Local x p) (hq : Local x q) :
    Local x (p.andThen q) := by
  intro h
  have hleft := hp h
  unfold Proc.andThen
  split
  · next h' heq =>
    rw [heq] at hleft
    exact hleft.trans (hq h')
  · next e h' heq =>
    rw [heq] at hleft
    exact hleft

theorem clearedHome_eq_some {f : Faults} {s : Site} {a : Account} {path : List Char}
    (h : clearedHome f s a = some path) : path = a.home ∧ path ≠ [] := by
  unfold clearedHome at h
  split at h
  · next hclears =>
    obtain rfl := Option.some.inj h
    exact ⟨rfl, hclears.2.1⟩
  · cases h

theorem homeOf_adjust {h : Host} {x : Name} {g : Account → Account} (hg : ∀ a, (g a).home = a.home)
    {a : Account} (ha : h.accounts x = some a) : (h.adjust x g).homeOf x = a.home := by
  rw [(touches_adjust h x hg).home, Host.homeOf, ha]
  rfl

theorem local_writeAuthorizedKeys (f : Faults) (s : Site) :
    Local s.account (writeAuthorizedKeys f s []) := by
  intro h
  rw [writeAuthorizedKeys_host]
  refine (touches_adjust h s.account (keysCleared_home f s)).trans (touches_emptyKeys fun path hpath => ?_)
  obtain ⟨a, ha, hpath⟩ := Option.bind_eq_some_iff.mp hpath
  rw [homeOf_adjust (keysCleared_home f s) ha]
  exact clearedHome_eq_some hpath

theorem local_revokeUser (f : Faults) (policy : AccountPolicy) (s : Site) :
    Local s.account (revokeUser f policy s) := by
  intro h
  rw [revokeUser_host]
  refine (touches_adjust h s.account (revoked_home f policy s)).trans
    (touches_emptyKeys fun path hpath => ?_)
  obtain ⟨a, ha, hpath⟩ := Option.bind_eq_some_iff.mp hpath
  unfold revokedHome at hpath
  split at hpath
  · rw [homeOf_adjust (revoked_home f policy s) ha]
    exact clearedHome_eq_some hpath
  · cases hpath

theorem local_configureAccount (f : Faults) (policy : AccountPolicy) (s : Site) :
    Local s.account (configureAccount f policy s) := by
  refine local_andThen ?_ (local_andThen (local_andThen ?_ (local_andThen ?_ ?_)) ?_)
  · intro h
    unfold ensureGroupMembership
    split
    · exact local_onAccount f s .joinGroup _ (by simp) h
    · exact local_nil _ h
  · exact local_onAccount f s .lock _ (by simp)
  · intro h
    unfold setShell
    split
    · exact local_onAccount f s .setShell _ (by simp) h
    · exact local_nil _ h
  · exact local_onAccount f s .clearExpiry _ (by simp)
  · exact local_writeAuthorizedKeys f s

theorem local_createUser (f : Faults) (policy : AccountPolicy) (s : Site) :
    Local s.account (createUser f policy s) := by
  intro h
  unfold createUser
  split
  · next hnew =>
    refine ⟨rfl, rfl, fun y hy => by simp [hy], fun _ => by simp, ?_, fun _ _ => rfl⟩
    simp [Host.homeOf, hnew.2.1, newAccount]
  · exact Touches.refl _ _

theorem createUser_there {f : Faults} {policy : AccountPolicy} {s : Site} {h h' : Host}
    (hrun : createUser f policy s h = (none, h')) : (h'.accounts s.account).isSome := by
  unfold createUser at hrun
  split at hrun
  · cases hrun
    simp
  · cases hrun

theorem touches_ensureAccount (f : Faults) (policy : AccountPolicy) (s : Site) (h : Host) :
    Touches s.account h (ensureAccount f policy s h).2.2 := by
  unfold ensureAccount
  split
  · exact Touches.refl _ _
  · next found _ =>
    cases found with
    | true => exact local_configureAccount f policy s h
    | false =>
      have hcreate := local_createUser f policy s h
      simp only [Bool.false_eq_true, if_false]
      split
      · next e h' heq =>
        rw [heq] at hcreate
        exact hcreate
      · next h' heq =>
        rw [heq] at hcreate
        exact hcreate.trans (local_configureAccount f policy s h')

/-- An account that is reported is there. -/
theorem ensureAccount_there {f : Faults} {policy : AccountPolicy} {s : Site} {h : Host}
    (hreported : (ensureAccount f policy s h).1 = true) :
    ((ensureAccount f policy s h).2.2.accounts s.account).isSome := by
  unfold ensureAccount at hreported ⊢
  cases hu : userExists f s h with
  | error e =>
    rw [hu] at hreported
    cases hreported
  | ok found =>
    rw [hu] at hreported
    cases found with
    | true =>
      have hx : (h.accounts s.account).isSome := by
        unfold userExists at hu
        split at hu
        · cases hu
        · cases hu
        · simpa using hu
      exact (local_configureAccount f policy s h).there hx
    | false =>
      simp only [Bool.false_eq_true, if_false] at hreported ⊢
      rcases hrun : createUser f policy s h with ⟨_ | e, h'⟩
      · exact (local_configureAccount f policy s h').there (createUser_there hrun)
      · rw [hrun] at hreported
        cases hreported

/-- `ensureAccount` touches one account, removes none, and an account it reports
is there. -/
theorem ensureAccount_frame (f : Faults) (policy : AccountPolicy) (s : Site) (h : Host) :
    (ensureAccount f policy s h).2.2.group = h.group ∧
    (∀ y, y ≠ s.account → (ensureAccount f policy s h).2.2.accounts y = h.accounts y) ∧
    (∀ y, (h.accounts y).isSome → ((ensureAccount f policy s h).2.2.accounts y).isSome) ∧
    ((ensureAccount f policy s h).1 = true →
      ((ensureAccount f policy s h).2.2.accounts s.account).isSome) :=
  have ht := touches_ensureAccount f policy s h
  ⟨ht.group, ht.others, fun _ hy => ht.isSome hy, ensureAccount_there⟩

/-! ## Without failures -/

/-- The account can be used: it is there and has not expired. The password is
locked either way, since a login takes a certificate. -/
def Enabled (h : Host) (x : Name) : Prop := ∃ a, h.accounts x = some a ∧ a.expired = false

def Disabled (h : Host) (x : Name) : Prop :=
  ∃ a, h.accounts x = some a ∧ a.locked = true ∧ a.expired = true

def noFaults : Faults := fun _ _ => .ok

theorem ensureGroup_noFaults (h : Host) : (ensureGroup noFaults h).2.group = true := by
  unfold ensureGroup
  cases hg : h.group <;> simp [noFaults, hg]

theorem onAccount_noFaults (s : Site) (c : Command) (context : String) (g : Account → Account)
    {h : Host} (hx : (h.accounts s.account).isSome = true) :
    onAccount noFaults s c context g h = (none, h.adjust s.account g) := by
  rw [onAccount, if_pos ⟨rfl, hx⟩]

theorem enforceCertificateOnly_noFaults (policy : AccountPolicy) (s : Site) {h : Host}
    (hx : (h.accounts s.account).isSome = true) :
    ∃ g, enforceCertificateOnly noFaults policy s h = (none, h.adjust s.account g) ∧
      ∀ a, (g a).expired = false := by
  have hlock := onAccount_noFaults s .lock "lock account" (fun a => { a with locked := true }) hx
  by_cases hshell : policy.defaultShell = []
  · refine ⟨fun a => { a with locked := true, expired := false }, ?_, fun _ => rfl⟩
    simp only [enforceCertificateOnly, Proc.andThen, lock, hlock, setShell, hshell, ne_eq,
      not_true_eq_false, if_false, clearExpiry]
    rw [onAccount_noFaults _ _ _ _ (by rwa [isSome_adjust]), adjust_adjust]
  · refine ⟨fun a => { a with locked := true, shell := policy.defaultShell, expired := false }, ?_,
      fun _ => rfl⟩
    simp only [enforceCertificateOnly, Proc.andThen, lock, hlock, setShell, hshell, ne_eq,
      not_false_eq_true, if_true, clearExpiry]
    rw [onAccount_noFaults _ _ _ _ (by rwa [isSome_adjust]), adjust_adjust]
    simp only
    rw [onAccount_noFaults _ _ _ _ (by rwa [isSome_adjust]), adjust_adjust]

theorem configureAccount_noFaults (policy : AccountPolicy) (s : Site) {h : Host} {b : Account}
    (hg : h.group = true) (hb : h.accounts s.account = some b) :
    Enabled (configureAccount noFaults policy s h).2 s.account := by
  have hx : (h.accounts s.account).isSome = true := by rw [hb]; rfl
  have hjoin := onAccount_noFaults s .joinGroup "usermod add"
    (fun a => { a with inGroup := true }) hx
  obtain ⟨g, hrun, hexp⟩ := enforceCertificateOnly_noFaults policy s
    (h := h.adjust s.account fun a => { a with inGroup := true }) (by rwa [isSome_adjust])
  simp only [Enabled, configureAccount, Proc.andThen, ensureGroupMembership, hg, if_true, hjoin, hrun,
    writeAuthorizedKeys_host, adjust_adjust, emptyKeys_accounts, adjust_accounts, hb, Option.map_some]
  refine ⟨_, rfl, ?_⟩
  unfold keysCleared
  split <;> exact hexp _

/-- The account is there afterwards and has no expiry, whatever it was before. -/
theorem ensureAccount_noFaults (policy : AccountPolicy) (s : Site) (h : Host) (hg : h.group = true) :
    (ensureAccount noFaults policy s h).1 = true ∧
      Enabled (ensureAccount noFaults policy s h).2.2 s.account := by
  have hid : userExists noFaults s h = .ok (h.accounts s.account).isSome := rfl
  unfold ensureAccount
  rw [hid]
  cases hx : h.accounts s.account with
  | some b => exact ⟨rfl, configureAccount_noFaults policy s hg hx⟩
  | none =>
    let h₁ : Host := { h with
      accounts := fun y => if y = s.account then some (newAccount policy y) else h.accounts y }
    have hc : createUser noFaults policy s h = (none, h₁) := if_pos ⟨rfl, hx, hg⟩
    have hb : h₁.accounts s.account = some (newAccount policy s.account) := if_pos rfl
    simp only [Option.isSome_none, Bool.false_eq_true, if_false, hc]
    exact ⟨trivial, configureAccount_noFaults policy s (h := h₁) hg hb⟩

end Keywarden.AgentHost
