import Mathlib.Data.List.Basic
import Keywarden.AgentSync

/-!
# The order in which a synchronisation goes through its maps

Both loops of `Sync` range over a map, so their order is another one in every run. Each turn works
on one account, whose name several entries may have. Turns on different accounts do not see each
other, and turns on one account do the same when the failures depend on the command and the account
alone. Two things follow the order all the same: the number that each new account is given, and,
if `id` exits with an error for an account that is there, which of the entries that share the
account is reported.
-/
namespace Keywarden.SyncOrder

open Rows AgentHost AgentSync

/-- Whether a command fails depends only on the command and the account. -/
def ByAccount (f : Faults) : Prop := ∀ s s' : Site, s.account = s'.account → f s = f s'

/-- The same call with the maps in other orders. -/
def reordered (call : SyncCall) (current wanted : Iteration) : SyncCall :=
  { call with currentOrder := current, desiredOrder := wanted }

/-- The name and the number of each line of `/etc/passwd`. -/
abbrev Passwd := List (Name × Nat)

/-- The line that is added if the account has been created. -/
def addLine (pick : Passwd → Nat) (before after : Host) (x : Name) (passwd : Passwd) : Passwd :=
  if (before.accounts x).isNone && (after.accounts x).isSome then passwd ++ [(x, pick passwd)]
  else passwd

/-- The body of the second loop, with the file. -/
def provisionLine (pick : Passwd → Nat) (f : Faults) (policy : AccountPolicy) (p : Host × Passwd)
    (r : ManagedAccount) : Host × Passwd :=
  let host := (ensureAccount f policy (provisionSite r) p.1).2.2
  (host, addLine pick p.1 host r.systemUser p.2)

/-- `/etc/passwd` after `Sync`; `pick` is the number that `useradd` takes. -/
def syncPasswd (pick : Passwd → Nat) (T : Username.CaseTable) (policy : AccountPolicy)
    (call : SyncCall) (sys : System) (passwd : Passwd) : Passwd :=
  match loadState call.readable sys.file with
  | .error _ => passwd
  | .ok current =>
    let want := desired T policy call.users
    let (groupErr, host) := ensureGroup call.faults sys.host
    let p := (call.currentOrder.visit current).foldl (revokeOne call.faults policy want)
      ⟨groupErr, host, {}⟩
    ((call.desiredOrder.visit want.toList).foldl (provisionLine pick call.faults policy)
      (p.host, passwd)).2

/-- The file has a line for each account of the host. -/
def Lists (passwd : Passwd) (host : Host) : Prop :=
  ∀ x, (∃ n, (x, n) ∈ passwd) ↔ (host.accounts x).isSome = true

/-- Two calls leave the same host and the same `accounts.json`, with the same counts and the same
set of reported accounts. -/
structure SameResult (T : Username.CaseTable) (policy : AccountPolicy) (call call' : SyncCall)
    (sys : System) : Prop where
  system : (sync T policy call sys).2.2 = (sync T policy call' sys).2.2
  applied : (sync T policy call sys).1.applied = (sync T policy call' sys).1.applied
  revoked : (sync T policy call sys).1.revoked = (sync T policy call' sys).1.revoked
  accounts : ∀ o, o ∈ (sync T policy call sys).1.accounts ↔ o ∈ (sync T policy call' sys).1.accounts

/-- Where two wanted entries share an account that is not there yet, `id` does not exit with an error
for it once it is. -/
def Tells (f : Faults) (want : List ManagedAccount) (host : Host) : Prop :=
  ∀ q ∈ want, ∀ r ∈ want, q ≠ r → q.systemUser = r.systemUser →
    host.accounts r.systemUser = none → f (provisionSite r) .id ≠ .exit

/-! ## What a turn sees -/

/-- The hosts agree about the account, the group and the files below the home directories. -/
structure Agree (x : Name) (h h' : Host) : Prop where
  account : h.accounts x = h'.accounts x
  group : h.group = h'.group
  keysFile : h.keysFile = h'.keysFile

theorem Agree.refl (x : Name) (h : Host) : Agree x h h := ⟨rfl, rfl, rfl⟩

/-- Of the files of authorized keys, those of the set are empty afterwards and the others as before. -/
def Empties (files : List Char → Bool) (before after : Host) : Prop :=
  ∀ p, after.authorizedKeys p = if files p then some [] else before.authorizedKeys p

theorem Empties.none {h h' : Host} (hsame : h'.authorizedKeys = h.authorizedKeys) :
    Empties (fun _ => false) h h' := fun p => congrFun hsame p

theorem Empties.trans {files files' : List Char → Bool} {h h' h'' : Host} (hfirst : Empties files h h')
    (hsecond : Empties files' h' h'') : Empties (fun p => files' p || files p) h h'' := by
  intro p
  rw [hsecond p, hfirst p]
  split_ifs with hlater hnow
  all_goals simp_all

/-- The same files are emptied from the one host to its successor as from the other. -/
def SameFiles (h k h' k' : Host) : Prop := ∃ files, Empties files h k ∧ Empties files h' k'

theorem SameFiles.none {h k h' k' : Host} (hk : k.authorizedKeys = h.authorizedKeys)
    (hk' : k'.authorizedKeys = h'.authorizedKeys) : SameFiles h k h' k' :=
  ⟨_, Empties.none hk, Empties.none hk'⟩

theorem SameFiles.refl (h h' : Host) : SameFiles h h h' h' := SameFiles.none rfl rfl

theorem SameFiles.trans {h k l h' k' l' : Host} (hfirst : SameFiles h k h' k')
    (hsecond : SameFiles k l k' l') : SameFiles h l h' l' := by
  obtain ⟨_, hk, hk'⟩ := hfirst
  obtain ⟨_, hl, hl'⟩ := hsecond
  exact ⟨_, hk.trans hl, hk'.trans hl'⟩

/-- The procedure sees the account, the group and the home directories only. -/
def Sees (x : Name) (p : Proc) : Prop := ∀ h h', Agree x h h' →
  (p h).1 = (p h').1 ∧ Agree x (p h).2 (p h').2 ∧ SameFiles h (p h).2 h' (p h').2

theorem Agree.adjust {x : Name} {h h' : Host} (hagree : Agree x h h') (g : Account → Account) :
    Agree x (h.adjust x g) (h'.adjust x g) := by
  refine ⟨?_, hagree.group, hagree.keysFile⟩
  rw [adjust_accounts, adjust_accounts, if_pos rfl, if_pos rfl, hagree.account]

theorem sees_nil (x : Name) : Sees x fun h => (none, h) :=
  fun h h' hagree => ⟨rfl, hagree, SameFiles.refl h h'⟩

theorem sees_onAccount (f : Faults) (s : Site) (c : Command) (context : String)
    (g : Account → Account) : Sees s.account (onAccount f s c context g) := by
  intro h h' hagree
  unfold onAccount
  rw [hagree.account]
  split
  · exact ⟨rfl, hagree.adjust g, SameFiles.none rfl rfl⟩
  · exact ⟨rfl, hagree, SameFiles.refl h h'⟩

/-- Two runs of a procedure on hosts that agree end the same way. -/
theorem Sees.cases {x : Name} {p : Proc} (hp : Sees x p) {h h' : Host} (hagree : Agree x h h') :
    ∃ e k k', p h = (e, k) ∧ p h' = (e, k') ∧ Agree x k k' ∧ SameFiles h k h' k' := by
  obtain ⟨herr, hhost, hfiles⟩ := hp h h' hagree
  exact ⟨(p h).1, (p h).2, (p h').2, rfl, Prod.ext herr.symm rfl, hhost, hfiles⟩

theorem sees_andThen {x : Name} {p q : Proc} (hp : Sees x p) (hq : Sees x q) :
    Sees x (p.andThen q) := by
  intro h h' hagree
  obtain ⟨e, k, k', hrun, hrun', hk, hfiles⟩ := hp.cases hagree
  unfold Proc.andThen
  rw [hrun, hrun']
  cases e with
  | none =>
    obtain ⟨herr, hl, hfiles'⟩ := hq k k' hk
    exact ⟨herr, hl, hfiles.trans hfiles'⟩
  | some e => exact ⟨rfl, hk, hfiles⟩

theorem sameFiles_writeKeys {h h' : Host} (hfile : h.keysFile = h'.keysFile) (home : List Char) :
    SameFiles h (h.writeKeys home []) h' (h'.writeKeys home []) := by
  refine ⟨fun p => p = h.keysFile home, fun p => ?_, fun p => ?_⟩
  · simp [Host.writeKeys]
  · simp [Host.writeKeys, hfile]

theorem sees_writeAuthorizedKeys (f : Faults) (s : Site) :
    Sees s.account (writeAuthorizedKeys f s []) := by
  intro h h' hagree
  unfold writeAuthorizedKeys
  split
  · exact ⟨rfl, hagree, SameFiles.refl h h'⟩
  · rw [hagree.account]
    cases h'.accounts s.account with
    | none => exact ⟨rfl, hagree, SameFiles.refl h h'⟩
    | some a =>
      dsimp only
      split
      · exact ⟨rfl, hagree, SameFiles.refl h h'⟩
      · split
        · exact ⟨rfl, hagree, SameFiles.refl h h'⟩
        · have hhome := hagree.adjust fun a => { a with homeExists := true }
          exact ⟨rfl, ⟨hhome.account, hhome.group, hhome.keysFile⟩,
            sameFiles_writeKeys hagree.keysFile a.home⟩

theorem sees_ensureGroupMembership (f : Faults) (s : Site) :
    Sees s.account (ensureGroupMembership f s) := by
  intro h h' hagree
  unfold ensureGroupMembership
  rw [hagree.group]
  split
  · exact sees_onAccount f s .joinGroup _ _ h h' hagree
  · exact ⟨rfl, hagree, SameFiles.refl h h'⟩

theorem sees_setShell (f : Faults) (policy : AccountPolicy) (s : Site) :
    Sees s.account (setShell f policy s) := by
  unfold setShell
  split
  · exact sees_onAccount f s .setShell _ _
  · exact sees_nil s.account

theorem sees_configureAccount (f : Faults) (policy : AccountPolicy) (s : Site) :
    Sees s.account (configureAccount f policy s) :=
  sees_andThen (sees_ensureGroupMembership f s)
    (sees_andThen
      (sees_andThen (sees_onAccount f s .lock _ _)
        (sees_andThen (sees_setShell f policy s) (sees_onAccount f s .clearExpiry _ _)))
      (sees_writeAuthorizedKeys f s))

theorem sees_createUser (f : Faults) (policy : AccountPolicy) (s : Site) :
    Sees s.account (createUser f policy s) := by
  intro h h' hagree
  unfold createUser
  rw [hagree.account, hagree.group]
  split
  · exact ⟨rfl, ⟨by simp, rfl, hagree.keysFile⟩, SameFiles.none rfl rfl⟩
  · exact ⟨rfl, hagree, SameFiles.refl h h'⟩

theorem userExists_agree {f : Faults} {s : Site} {h h' : Host} (hagree : Agree s.account h h') :
    userExists f s h = userExists f s h' := by
  unfold userExists
  rw [hagree.account]

/-- A turn of the second loop sees the account, the group and the home directories only. -/
theorem ensureAccount_agree {f : Faults} {policy : AccountPolicy} {s : Site} {h h' : Host}
    (hagree : Agree s.account h h') :
    (ensureAccount f policy s h).1 = (ensureAccount f policy s h').1 ∧
      Agree s.account (ensureAccount f policy s h).2.2 (ensureAccount f policy s h').2.2 ∧
      SameFiles h (ensureAccount f policy s h).2.2 h' (ensureAccount f policy s h').2.2 := by
  have hconfigure := sees_configureAccount f policy s
  unfold ensureAccount
  rw [userExists_agree hagree]
  cases userExists f s h' with
  | error e => exact ⟨rfl, hagree, SameFiles.refl h h'⟩
  | ok found =>
    cases found with
    | true => exact ⟨rfl, (hconfigure h h' hagree).2⟩
    | false =>
      obtain ⟨e, k, k', hrun, hrun', hk, hfiles⟩ := (sees_createUser f policy s).cases hagree
      simp only [Bool.false_eq_true, if_false, hrun, hrun']
      cases e with
      | none =>
        obtain ⟨_, hl, hfiles'⟩ := hconfigure k k' hk
        exact ⟨rfl, hl, hfiles.trans hfiles'⟩
      | some e => exact ⟨rfl, hk, hfiles⟩

/-! ## Turns in another order -/

/-- The host after a turn of the second loop. -/
def provisionHost (f : Faults) (policy : AccountPolicy) (h : Host) (r : ManagedAccount) : Host :=
  (ensureAccount f policy (provisionSite r) h).2.2

/-- The host after a turn of the first loop. -/
def revokeHost (f : Faults) (policy : AccountPolicy) (want : Table ManagedAccount) (h : Host)
    (r : ManagedAccount) : Host :=
  if (want.find r.userID).isSome then h else (revokeUser f policy (revokeSite r) h).2

theorem ensureAccount_congr {f : Faults} {policy : AccountPolicy} {s s' : Site}
    (hf : f s = f s') (haccount : s.account = s'.account) :
    ensureAccount f policy s = ensureAccount f policy s' := by
  funext h
  simp only [ensureAccount, userExists, createUser, configureAccount, enforceCertificateOnly,
    ensureGroupMembership, lock, setShell, clearExpiry, writeAuthorizedKeys, onAccount, Proc.andThen,
    hf, haccount]

theorem revokeUser_congr {f : Faults} {policy : AccountPolicy} {s s' : Site} (hf : f s = f s')
    (haccount : s.account = s'.account) : revokeUser f policy s = revokeUser f policy s' := by
  funext h
  simp only [revokeUser, userExists, disableAccount, lock, expireAccount, writeAuthorizedKeys, onAccount,
    Proc.andThen, hf, haccount]

theorem adjust_comm {x y : Name} (hne : x ≠ y) (h : Host) (g g' : Account → Account) :
    (h.adjust x g).adjust y g' = (h.adjust y g').adjust x g := by
  ext1
  · funext z
    by_cases hx : z = x
    · have hy : z ≠ y := fun hy => hne (hx.symm.trans hy)
      simp only [adjust_accounts, if_pos hx, if_neg hy]
    · simp only [adjust_accounts, if_neg hx]
  · rfl
  · rfl
  · rfl

/-- Revocations of two accounts. -/
theorem revokeUser_comm {f : Faults} {policy : AccountPolicy} {s s' : Site} (h : Host)
    (hne : s.account ≠ s'.account) :
    (revokeUser f policy s' (revokeUser f policy s h).2).2 =
      (revokeUser f policy s (revokeUser f policy s' h).2).2 := by
  rw [revokeUser_host f policy s', revokeUser_host f policy s (revokeUser f policy s' h).2,
    revokeUser_accounts, revokeUser_accounts, if_neg hne.symm, if_neg hne, revokeUser_host f policy s h,
    revokeUser_host f policy s' h, adjust_emptyKeys, adjust_emptyKeys, adjust_comm hne, emptyKeys_comm]

/-- Two turns of the first loop. -/
theorem revokeHost_comm {f : Faults} (hf : ByAccount f) (policy : AccountPolicy)
    (want : Table ManagedAccount) (h : Host) (q r : ManagedAccount) :
    revokeHost f policy want (revokeHost f policy want h q) r =
      revokeHost f policy want (revokeHost f policy want h r) q := by
  unfold revokeHost
  by_cases hq : (want.find q.userID).isSome = true
  · rw [if_pos hq, if_pos hq]
  · by_cases hr : (want.find r.userID).isSome = true
    · rw [if_pos hr, if_pos hr]
    · rw [if_neg hq, if_neg hr, if_neg hr, if_neg hq]
      by_cases haccount : q.systemUser = r.systemUser
      · rw [revokeUser_congr (hf (revokeSite q) (revokeSite r) haccount) haccount]
      · exact revokeUser_comm h haccount

theorem provisionHost_group (f : Faults) (policy : AccountPolicy) (h : Host) (r : ManagedAccount) :
    (provisionHost f policy h r).group = h.group :=
  (ensureAccount_frame f policy (provisionSite r) h).1

/-- The other accounts, the group and the home directories are as they were. -/
theorem provisionHost_agree {f : Faults} {policy : AccountPolicy} (h : Host) {r : ManagedAccount}
    {x : Name} (hne : x ≠ r.systemUser) : Agree x (provisionHost f policy h r) h := by
  have ht := touches_ensureAccount f policy (provisionSite r) h
  exact ⟨ht.others x hne, ht.group, ht.keysFile⟩

/-- Two turns of the second loop. -/
theorem provisionHost_comm {f : Faults} (hf : ByAccount f) (policy : AccountPolicy) (h : Host)
    (q r : ManagedAccount) : provisionHost f policy (provisionHost f policy h q) r =
      provisionHost f policy (provisionHost f policy h r) q := by
  by_cases haccount : q.systemUser = r.systemUser
  · have hsame : ensureAccount f policy (provisionSite q) = ensureAccount f policy (provisionSite r) :=
      ensureAccount_congr (hf _ _ haccount) haccount
    simp only [provisionHost, hsame]
  · -- a turn does the same after one on another account as before it
    have hturn : ∀ {q r : ManagedAccount}, q.systemUser ≠ r.systemUser →
        Agree q.systemUser (provisionHost f policy (provisionHost f policy h r) q)
          (provisionHost f policy h q) ∧
        SameFiles (provisionHost f policy h r) (provisionHost f policy (provisionHost f policy h r) q)
          h (provisionHost f policy h q) :=
      fun {q r} hne => (ensureAccount_agree (s := provisionSite q) (provisionHost_agree h hne)).2
    have hone : ∀ {q r : ManagedAccount}, q.systemUser ≠ r.systemUser →
        (provisionHost f policy (provisionHost f policy h q) r).accounts q.systemUser =
          (provisionHost f policy (provisionHost f policy h r) q).accounts q.systemUser := by
      intro q r hne
      rw [(provisionHost_agree (provisionHost f policy h q) hne).account]
      exact (hturn hne).1.account.symm
    ext1
    · funext z
      by_cases hq : z = q.systemUser
      · rw [hq]
        exact hone haccount
      · by_cases hr : z = r.systemUser
        · rw [hr]
          exact (hone (Ne.symm haccount)).symm
        · rw [(provisionHost_agree _ hr).account, (provisionHost_agree _ hq).account,
            (provisionHost_agree _ hq).account, (provisionHost_agree _ hr).account]
    · simp only [provisionHost_group]
    · have hkeys : ∀ (h : Host) (r : ManagedAccount), (provisionHost f policy h r).keysFile = h.keysFile :=
        fun h r => (touches_ensureAccount f policy (provisionSite r) h).keysFile
      simp only [hkeys]
    · obtain ⟨files, hq, hq'⟩ := (hturn haccount).2
      obtain ⟨files', hr, hr'⟩ := (hturn (Ne.symm haccount)).2
      funext p
      rw [hr p, hq' p, hq p, hr' p]
      cases files p <;> cases files' p <;> rfl

/-! ## Whether an account is reported as present -/

def report (f : Faults) (policy : AccountPolicy) (h : Host) (r : ManagedAccount) : ReportAccount :=
  ⟨r.userID, r.systemUser, (ensureAccount f policy (provisionSite r) h).1⟩

/-- A turn that reports the account as absent has done nothing. -/
theorem ensureAccount_absent {f : Faults} {policy : AccountPolicy} {s : Site} {h : Host}
    (habsent : (ensureAccount f policy s h).1 = false) : (ensureAccount f policy s h).2.2 = h := by
  unfold ensureAccount at habsent ⊢
  cases hexists : userExists f s h with
  | error e => rfl
  | ok found =>
    rw [hexists] at habsent
    cases found with
    | true => cases habsent
    | false =>
      have hcreate : ∀ e k, createUser f policy s h = (some e, k) → k = h := by
        intro e k hrun
        unfold createUser at hrun
        split at hrun
        · cases hrun
        · cases hrun
          rfl
      simp only [Bool.false_eq_true, if_false] at habsent ⊢
      rcases hrun : createUser f policy s h with ⟨_ | e, k⟩
      · rw [hrun] at habsent
        cases habsent
      · exact hcreate e k hrun

/-- An account that is there is reported, if `id` tells. -/
theorem ensureAccount_present {f : Faults} {policy : AccountPolicy} {s : Site} {h : Host}
    (hid : f s .id = .ok) (hthere : (h.accounts s.account).isSome = true) :
    (ensureAccount f policy s h).1 = true := by
  have hexists : userExists f s h = .ok true := by simp only [userExists, hid, hthere]
  simp only [ensureAccount, hexists, if_true]

/-- If `id` exits with an error, an account that is there is reported as absent. -/
theorem ensureAccount_exit {f : Faults} {policy : AccountPolicy} {s : Site} {h : Host}
    (hid : f s .id = .exit) (hthere : h.accounts s.account ≠ none) :
    (ensureAccount f policy s h).1 = false := by
  have hexists : userExists f s h = .ok false := by simp only [userExists, hid]
  have hcreate : createUser f policy s h = (some ⟨"useradd", s.account⟩, h) :=
    if_neg fun hnew => hthere hnew.2.1
  simp only [ensureAccount, hexists, hcreate, Bool.false_eq_true, if_false]

/-- A second turn on the account reports what the first has reported. -/
theorem ensureAccount_again {f : Faults} {policy : AccountPolicy} {s : Site} {h : Host}
    (hid : h.accounts s.account = none → f s .id ≠ .exit) :
    (ensureAccount f policy s (ensureAccount f policy s h).2.2).1 = (ensureAccount f policy s h).1 := by
  cases hpresent : (ensureAccount f policy s h).1 with
  | false => rw [ensureAccount_absent hpresent, hpresent]
  | true =>
    have hthere := (ensureAccount_frame f policy s h).2.2.2 hpresent
    cases hrun : f s .id with
    | ok => exact ensureAccount_present hrun hthere
    | exit =>
      rw [ensureAccount_exit hrun fun hnone => hid hnone hrun] at hpresent
      cases hpresent
    | noexec =>
      simp only [ensureAccount, userExists, hrun] at hpresent
      cases hpresent

/-- A turn before it makes no difference to what a turn reports. -/
theorem report_provisionHost {f : Faults} (hf : ByAccount f) (policy : AccountPolicy) (h : Host)
    {q r : ManagedAccount} (hid : q.systemUser = r.systemUser → h.accounts r.systemUser = none →
      f (provisionSite r) .id ≠ .exit) :
    report f policy (provisionHost f policy h q) r = report f policy h r := by
  unfold report
  by_cases haccount : q.systemUser = r.systemUser
  · have hsame : ensureAccount f policy (provisionSite q) = ensureAccount f policy (provisionSite r) :=
      ensureAccount_congr (hf _ _ haccount) haccount
    rw [provisionHost, hsame, ensureAccount_again (hid haccount)]
  · have hagree : Agree r.systemUser (provisionHost f policy h q) h :=
      provisionHost_agree h (Ne.symm haccount)
    rw [(ensureAccount_agree (s := provisionSite r) hagree).1]

/-! ## The loops -/

theorem revokeOne_host (f : Faults) (policy : AccountPolicy) (want : Table ManagedAccount)
    (p : Progress) (r : ManagedAccount) :
    (revokeOne f policy want p r).host = revokeHost f policy want p.host r := by
  unfold revokeOne revokeHost
  split
  · rfl
  · rfl

theorem revoke_fold_host (f : Faults) (policy : AccountPolicy) (want : Table ManagedAccount)
    (l : List ManagedAccount) (p : Progress) :
    (l.foldl (revokeOne f policy want) p).host = l.foldl (revokeHost f policy want) p.host :=
  (List.foldl_hom Progress.host fun p r => (revokeOne_host f policy want p r).symm).symm

theorem revokeOne_result (f : Faults) (policy : AccountPolicy) (want : Table ManagedAccount)
    (p : Progress) (r : ManagedAccount) : (revokeOne f policy want p r).result =
      { p.result with
        revoked := p.result.revoked + if (want.find r.userID).isNone = true then 1 else 0 } := by
  unfold revokeOne
  by_cases hr : (want.find r.userID).isSome = true
  · have hnone : ¬ (want.find r.userID).isNone = true := fun h => by
      rw [Option.isNone_iff_eq_none.mp h] at hr
      cases hr
    rw [if_pos hr, if_neg hnone]
    rfl
  · have hnone : (want.find r.userID).isNone = true := by simpa using hr
    rw [if_neg hr, if_pos hnone]

/-- The first loop counts the entries that are not wanted. -/
theorem revoke_fold_result (f : Faults) (policy : AccountPolicy) (want : Table ManagedAccount)
    (l : List ManagedAccount) (p : Progress) :
    (l.foldl (revokeOne f policy want) p).result =
      { p.result with
        revoked := p.result.revoked + l.countP fun r => (want.find r.userID).isNone } := by
  induction l generalizing p with
  | nil => rfl
  | cons r l ih =>
    rw [List.foldl_cons, ih, revokeOne_result, List.countP_cons]
    simp only [Result.mk.injEq, and_true, true_and]
    omega

theorem provision_fold_host (f : Faults) (policy : AccountPolicy) (l : List ManagedAccount)
    (p : Progress) :
    (l.foldl (provisionOne f policy) p).host = l.foldl (provisionHost f policy) p.host :=
  (List.foldl_hom Progress.host fun _ _ => rfl).symm

theorem provisionOne_result (f : Faults) (policy : AccountPolicy) (p : Progress)
    (r : ManagedAccount) : (provisionOne f policy p r).result =
      { p.result with
        applied := p.result.applied + if (report f policy p.host r).present = true then 1 else 0
        accounts := p.result.accounts ++ [report f policy p.host r] } := by
  unfold provisionOne report
  rcases ensureAccount f policy (provisionSite r) p.host with ⟨_ | _, e, host⟩
  · rfl
  · rfl

theorem Tells.tail {f : Faults} {q : ManagedAccount} {l : List ManagedAccount} {host : Host}
    (h : Tells f (q :: l) host) : Tells f l host :=
  fun a ha b hb => h a (List.mem_cons_of_mem q ha) b (List.mem_cons_of_mem q hb)

/-- It stays so when accounts are added. -/
theorem Tells.mono {f : Faults} {l : List ManagedAccount} {host host' : Host} (h : Tells f l host)
    (hkept : ∀ x, (host.accounts x).isSome = true → (host'.accounts x).isSome = true) :
    Tells f l host' := by
  intro q hq r hr hne haccount hnone
  refine h q hq r hr hne haccount (Option.not_isSome_iff_eq_none.mp fun hthere => ?_)
  exact absurd (hkept r.systemUser hthere) (by simp [hnone])

/-- The second loop reports of each entry what a turn on the first host would. -/
theorem provision_fold_result {f : Faults} (hf : ByAccount f) (policy : AccountPolicy)
    {l : List ManagedAccount} (hnodup : l.Nodup) {p : Progress} (htells : Tells f l p.host) :
    (l.foldl (provisionOne f policy) p).result =
      { p.result with
        applied := p.result.applied + (l.map (report f policy p.host)).countP ReportAccount.present
        accounts := p.result.accounts ++ l.map (report f policy p.host) } := by
  induction l generalizing p with
  | nil => simp
  | cons q l ih =>
    obtain ⟨hq, hnodup⟩ := List.nodup_cons.mp hnodup
    have hrest : l.map (report f policy (provisionOne f policy p q).host) =
        l.map (report f policy p.host) := by
      refine List.map_congr_left fun r hr => report_provisionHost hf policy p.host fun haccount => ?_
      exact htells q List.mem_cons_self r (List.mem_cons_of_mem q hr)
        (ne_of_mem_of_not_mem hr hq).symm haccount
    have hnext : Tells f l (provisionOne f policy p q).host :=
      htells.tail.mono (provisionOne_frame f policy p q).2.2
    rw [List.foldl_cons, ih hnodup hnext, hrest, provisionOne_result, List.map_cons, List.countP_cons]
    simp only [Result.mk.injEq, List.append_assoc, List.singleton_append, and_self, and_true]
    omega

/-! ## The whole call -/

variable {T : Username.CaseTable} {policy : AccountPolicy}

/-- Revocations remove no account. -/
theorem isSome_revoke_fold (f : Faults) (want : Table ManagedAccount) (l : List ManagedAccount)
    (h : Host) (x : Name) :
    ((l.foldl (revokeHost f policy want) h).accounts x).isSome = (h.accounts x).isSome := by
  induction l generalizing h with
  | nil => rfl
  | cons r l ih =>
    rw [List.foldl_cons, ih]
    unfold revokeHost
    split
    · rfl
    · rw [revokeUser_accounts]
      split
      · exact Option.isSome_map
      · rfl

/-- The host after the first loop. -/
def afterRevocations (T : Username.CaseTable) (policy : AccountPolicy) (call : SyncCall)
    (current : List ManagedAccount) (host : Host) : Host :=
  (call.currentOrder.visit current).foldl
    (revokeHost call.faults policy (desired T policy call.users)) (ensureGroup call.faults host).2

theorem isSome_afterRevocations (call : SyncCall) (current : List ManagedAccount) (host : Host)
    (x : Name) : ((afterRevocations T policy call current host).accounts x).isSome =
      (host.accounts x).isSome := by
  rw [afterRevocations, isSome_revoke_fold, ensureGroup_accounts]

theorem afterRevocations_reordered {call : SyncCall} (hf : ByAccount call.faults)
    (current wanted : Iteration) (stored : List ManagedAccount) (host : Host) :
    afterRevocations T policy (reordered call current wanted) stored host =
      afterRevocations T policy call stored host :=
  ((current.perm stored).trans (call.currentOrder.perm stored).symm).foldl_eq'
    (fun a _ b _ h => revokeHost_comm hf policy _ h a b) _

/-- What a call leaves, by its two loops. -/
theorem sync_system (call : SyncCall) {sys : System} {current : List ManagedAccount}
    (hload : loadState call.readable sys.file = .ok current) :
    (sync T policy call sys).2.2 =
      ⟨(call.desiredOrder.visit (desired T policy call.users).toList).foldl
          (provisionHost call.faults policy) (afterRevocations T policy call current sys.host),
        (saveState call.save (desired T policy call.users).toList sys.file).2⟩ := by
  simp only [sync, hload, provision_fold_host, revoke_fold_host, afterRevocations]

theorem nodup_visit (it : Iteration) (t : Table ManagedAccount) : (it.visit t.toList).Nodup :=
  (it.perm t.toList).nodup_iff.mpr (t.nodup.of_map Keyed.key)

theorem tells_visit {f : Faults} {l : List ManagedAccount} {host : Host} (h : Tells f l host)
    (it : Iteration) : Tells f (it.visit l) host := fun q hq r hr =>
  h q ((Iteration.mem_visit it l q).mp hq) r ((Iteration.mem_visit it l r).mp hr)

/-- What a call returns: the reports of the wanted entries, each as of the host after the first
loop, and the two counts. -/
theorem sync_result (call : SyncCall) {sys : System} {current : List ManagedAccount}
    (hf : ByAccount call.faults)
    (htells : Tells call.faults (desired T policy call.users).toList sys.host)
    (hload : loadState call.readable sys.file = .ok current) :
    let reports := (call.desiredOrder.visit (desired T policy call.users).toList).map
      (report call.faults policy (afterRevocations T policy call current sys.host))
    (sync T policy call sys).1 = {
      applied := reports.countP ReportAccount.present
      revoked := (call.currentOrder.visit current).countP fun r =>
        ((desired T policy call.users).find r.userID).isNone
      accounts := reports } := by
  have htells : Tells call.faults (desired T policy call.users).toList
      (afterRevocations T policy call current sys.host) :=
    htells.mono fun x hx => (isSome_afterRevocations call current sys.host x).trans hx
  simp only [sync, hload]
  rw [provision_fold_result hf policy (nodup_visit _ _)]
  · rw [revoke_fold_result, revoke_fold_host]
    simp only [afterRevocations, Nat.zero_add, List.nil_append]
  · rw [revoke_fold_host]
    exact tells_visit htells call.desiredOrder

/-- For every order of both maps a call leaves the same. -/
theorem sync_reordered {call : SyncCall} {sys : System} (hf : ByAccount call.faults)
    (htells : Tells call.faults (desired T policy call.users).toList sys.host)
    (current wanted : Iteration) : SameResult T policy call (reordered call current wanted) sys := by
  cases hload : loadState call.readable sys.file with
  | error e =>
    have hcall : sync T policy call sys = ({}, some e, sys) := by simp only [sync, hload]
    have hother : sync T policy (reordered call current wanted) sys = ({}, some e, sys) := by
      simp only [sync, reordered, hload]
    constructor
    all_goals simp only [hcall, hother, implies_true]
  | ok stored =>
    have hfirst : afterRevocations T policy (reordered call current wanted) stored sys.host =
        afterRevocations T policy call stored sys.host :=
      afterRevocations_reordered hf current wanted stored sys.host
    have hresult := sync_result call hf htells hload
    have hother := sync_result (reordered call current wanted) hf htells hload
    have hperm := (call.desiredOrder.perm (desired T policy call.users).toList).trans
      (wanted.perm (desired T policy call.users).toList).symm
    have hreports := hperm.map
      (report call.faults policy (afterRevocations T policy call stored sys.host))
    rw [hfirst] at hother
    constructor
    · rw [sync_system call hload, sync_system (reordered call current wanted) hload, hfirst]
      exact congrArg₂ System.mk
        (hperm.foldl_eq' (fun a _ b _ h => provisionHost_comm hf policy h a b) _) rfl
    · rw [hresult, hother]
      exact hreports.countP_eq _
    · rw [hresult, hother]
      exact ((call.currentOrder.perm stored).trans (current.perm stored).symm).countP_eq _
    · intro o
      rw [hresult, hother]
      exact hreports.mem_iff

/-! ## The lines of the new accounts -/

theorem addLine_initial (pick : Passwd → Nat) (before after : Host) (x : Name) (passwd : Passwd) :
    passwd <+: addLine pick before after x passwd := by
  unfold addLine
  split
  · exact List.prefix_append passwd _
  · exact List.prefix_refl passwd

/-- A turn adds the line of the account that it has created. -/
theorem lists_provisionLine (pick : Passwd → Nat) {f : Faults} {p : Host × Passwd}
    (h : Lists p.2 p.1) (r : ManagedAccount) :
    Lists (provisionLine pick f policy p r).2 (provisionLine pick f policy p r).1 := by
  intro x
  change (∃ n, (x, n) ∈ addLine pick p.1 (provisionHost f policy p.1 r) r.systemUser p.2) ↔
    ((provisionHost f policy p.1 r).accounts x).isSome = true
  have hkept : (p.1.accounts x).isSome = true →
      ((provisionHost f policy p.1 r).accounts x).isSome = true :=
    (ensureAccount_frame f policy (provisionSite r) p.1).2.2.1 x
  unfold addLine
  by_cases hx : x = r.systemUser
  · subst hx
    by_cases hbefore : (p.1.accounts r.systemUser).isSome = true
    · have hnot : ¬ ((p.1.accounts r.systemUser).isNone &&
          ((provisionHost f policy p.1 r).accounts r.systemUser).isSome) = true := by
        simp [Option.isSome_iff_ne_none.mp hbefore]
      rw [if_neg hnot, h r.systemUser]
      exact iff_of_true hbefore (hkept hbefore)
    · have hnone : p.1.accounts r.systemUser = none := by simpa using hbefore
      by_cases hafter : ((provisionHost f policy p.1 r).accounts r.systemUser).isSome = true
      · rw [if_pos (by simp [hnone, hafter])]
        exact iff_of_true ⟨_, List.mem_append_right p.2 List.mem_cons_self⟩ hafter
      · rw [if_neg (by simp [hafter]), h r.systemUser]
        exact iff_of_false hbefore hafter
  · rw [(provisionHost_agree p.1 hx).account, ← h x]
    split
    · simp [hx]
    · rfl

theorem lists_fold (pick : Passwd → Nat) (f : Faults) (policy : AccountPolicy)
    (l : List ManagedAccount) {p : Host × Passwd} (h : Lists p.2 p.1) :
    p.2 <+: (l.foldl (provisionLine pick f policy) p).2 ∧
      Lists (l.foldl (provisionLine pick f policy) p).2 (l.foldl (provisionHost f policy) p.1) := by
  induction l generalizing p with
  | nil => exact ⟨List.prefix_refl p.2, h⟩
  | cons r l ih =>
    obtain ⟨hinitial, hlists⟩ := ih (lists_provisionLine pick h r)
    exact ⟨(addLine_initial pick p.1 _ r.systemUser p.2).trans hinitial, hlists⟩

/-- The lines that were there stay, and after the call there is one for each account. -/
theorem syncPasswd_lists (T : Username.CaseTable) (policy : AccountPolicy) (pick : Passwd → Nat)
    (call : SyncCall) {sys : System} {passwd : Passwd}
    (h : Lists passwd sys.host) : passwd <+: syncPasswd pick T policy call sys passwd ∧
      Lists (syncPasswd pick T policy call sys passwd) (sync T policy call sys).2.2.host := by
  cases hload : loadState call.readable sys.file with
  | error e =>
    simp only [syncPasswd, sync, hload]
    exact ⟨List.prefix_refl passwd, h⟩
  | ok stored =>
    have hlists : Lists passwd (afterRevocations T policy call stored sys.host) := by
      intro x
      rw [isSome_afterRevocations]
      exact h x
    rw [sync_system call hload]
    simp only [syncPasswd, hload, revoke_fold_host]
    exact lists_fold pick call.faults policy
      (call.desiredOrder.visit (desired T policy call.users).toList) (p := (_, passwd)) hlists

/-- The number above all that are in use, from 1000 on. -/
def aboveAll (passwd : Passwd) : Nat := (passwd.map Prod.snd).foldl max 999 + 1

def backwards : Iteration := ⟨List.reverse, List.reverse_perm⟩

def emptyHost : Host := { accounts := fun _ => none, group := false }

def accessOf (i : Int) (x : String) : AccessUser := ⟨i, x.toList, x.toList⟩

def certificatesOnly : AccountPolicy := ⟨"{{username}}".toList, "/bin/bash".toList, true, true⟩

/-- `id` exits with an error for every account. -/
def idExits : Faults := fun _ c => if c = .id then .exit else .ok

def twoNew : SyncCall where
  users := [accessOf 1 "alice", accessOf 2 "bob"]

/-- Two entries share the new account. -/
def sharedNew : SyncCall where
  users := [accessOf 1 "alice", accessOf 2 "alice"]
  faults := idExits

end Keywarden.SyncOrder
