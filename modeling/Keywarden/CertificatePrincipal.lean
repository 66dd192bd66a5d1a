import Keywarden.AccountReports
import Keywarden.CertificateRun

/-!
# The principal of a certificate

The agents are told the name that `render_system_username` gives a user now. A
certificate carries the name it gave when the certificate was issued, and a download
hands a valid certificate out again without a look at the name.
-/
namespace Keywarden.CertificatePrincipal

open Rows Transitions Keys Username Authorization CertificateRun
open KeyApi (downloadCertificate)
open AccountReports (AccountAccessOut accountAccess)

/-- The value of `-n`, as `ssh-keygen` reads it. -/
def principals (body : SignedCertificate) : List (List Char) := body.principals.splitOn ','

section

variable (cfg : Settings) (T : CaseTable)

/-- Some server is told of the user. -/
def Listed (site : Site) (u : UserId) : Prop :=
  ∃ serverId accounts, accountAccess cfg T serverId site = .ok accounts ∧
    ∃ account ∈ accounts, account.userId = u

/-- The one principal is the name that every server has for the user it is told of. -/
def NamesAccount (site : Site) (u : UserId) (body : SignedCertificate) : Prop :=
  ∃ p, principals body = [p] ∧
    ∀ serverId accounts, accountAccess cfg T serverId site = .ok accounts →
      ∀ account ∈ accounts, account.userId = u → account.systemUsername = p

/-- The certificate that is handed out again was issued under a name that gives the same
principal as the present one, unless no server is told of the user. -/
def KeepsName (env : Env) (w : World) (key : SSHKey) : Prop :=
  ∀ c, cached env key.id w.site.toDb = some c → Listed cfg T w.site key.user →
    principalOf cfg T (w.issues key.id).username key.user =
      principalOf cfg T (usernameOf w.site.toDb key.user) key.user

end

variable {cfg : Settings} {T : CaseTable}

/-- What a server is told of a user is the user's present name. -/
theorem account_name {site : Site} {serverId : Nat} {accounts : List AccountAccessOut}
    (h : accountAccess cfg T serverId site = .ok accounts) {account : AccountAccessOut}
    (ha : account ∈ accounts) {u : UserId} (hu : account.userId = u) :
    account.systemUsername = principalOf cfg T (usernameOf site.toDb u) u := by
  unfold accountAccess at h
  split at h
  · cases h
  · next server _ =>
    cases h
    obtain ⟨user, huser, rfl⟩ := List.mem_map.mp ha
    obtain rfl : user.id = u := Int.ofNat.inj hu
    have hfind : site.users.find user.id = some user :=
      (Table.find_eq_some _ _ _).mpr ⟨((mem_resolveAccessUsers _ _ _).mp huser).1, rfl⟩
    rw [usernameOf, hfind]
    rfl

theorem principals_principalOf {body : SignedCertificate} {username : List Char} {u : UserId}
    (h : body.principals = principalOf cfg T username u) :
    principals body = [principalOf cfg T username u] := by
  rw [principals, h]
  refine List.splitOnP_eq_singleton fun c hc => ?_
  have hne : c ≠ ',' := by
    rintro rfl
    exact (renderSystemUsername_single T cfg.accountUsernameTemplate username u).no_comma hc
  simpa using hne

/-- A certificate under a name of the user names its account if and only if that name
gives the present principal. -/
theorem namesAccount_iff {site : Site} {u : UserId} {body : SignedCertificate} {username : List Char}
    (h : body.principals = principalOf cfg T username u) :
    NamesAccount cfg T site u body ↔ (Listed cfg T site u →
      principalOf cfg T username u = principalOf cfg T (usernameOf site.toDb u) u) := by
  have hone := principals_principalOf h
  constructor
  · rintro ⟨p, hp, hall⟩ ⟨serverId, accounts, haccess, account, ha, hu⟩
    have hpu : principalOf cfg T username u = p := List.singleton_inj.mp (hone.symm.trans hp)
    rw [hpu, ← hall serverId accounts haccess account ha hu]
    exact account_name haccess ha hu
  · intro hname
    refine ⟨_, hone, fun serverId accounts haccess account ha hu => ?_⟩
    rw [hname ⟨serverId, accounts, haccess, account, ha, hu⟩]
    exact account_name haccess ha hu

theorem run_named (site : Site) (events : List Event) (he : ∀ e ∈ events, Deployed cfg T e) :
    Owned (run step (start site) events).site.toDb ∧ Named cfg T (run step (start site) events) := by
  refine run_invariant (P := fun _ e => Deployed cfg T e)
    (I := fun w => Owned w.site.toDb ∧ Named cfg T w) ?_ ?_ (along_of_mem _ he)
  · exact fun w e h he => ⟨owned_step w he h.1, named_step w he h.2⟩
  · exact ⟨fun c hc => absurd hc (Table.not_mem_empty c), fun c hc => absurd hc (Table.not_mem_empty c)⟩

/-- In any state of any run, a certificate that is downloaded has one principal, the name
that all servers that are told of the user have for the user, if and only if it is not a
valid certificate from before a change of that name. -/
theorem namesAccount_download_iff (site : Site) (events : List Event)
    (he : ∀ e ∈ events, Deployed cfg T e) {env : Env} (hcfg : env.cfg = cfg) (hT : env.caseTable = T)
    {caller : Caller} {key : SSHKey} (hkey : key ∈ (run step (start site) events).site.sshKeys)
    {body : SignedCertificate} {filename : List Char} {db' : Db}
    (h : downloadCertificate env caller key.id (run step (start site) events).site.toDb =
      (.ok (body, filename), db')) :
    NamesAccount cfg T (run step (start site) events).site key.user body ↔
      KeepsName cfg T env (run step (start site) events) key := by
  obtain ⟨howned, hnamed⟩ := run_named site events he
  generalize run step (start site) events = w at *
  obtain ⟨key', hkey', cert, hid, _, rfl, hcert⟩ := downloadCertificate_ok h
  obtain rfl : key' = key := Table.eq_of_key _ hkey' hkey hid
  obtain ⟨hcached, _⟩ | ⟨hnone, huser, hfresh, husers⟩ := hcert
  · obtain ⟨hc, hck, hactive⟩ := cached_some hcached
    obtain ⟨k, hk, hkid, hku⟩ := howned cert hc
    obtain rfl : k = key' := Table.eq_of_key _ hk hkey (hkid.trans hck)
    have hname := hnamed cert hc hactive
    rw [hck, ← hku] at hname
    rw [namesAccount_iff hname]
    exact ⟨fun h c _ => h, fun h => h cert hcached⟩
  · have hname := hfresh.principal
    rw [hcfg, hT, huser, usernameOf, husers] at hname
    rw [namesAccount_iff hname]
    refine iff_of_true (fun _ => rfl) fun c hc => ?_
    rw [hnone] at hc
    cases hc

/-! ## A user who is renamed -/

def emailChange : Event :=
  .updateUser ⟨.keep, fun a b => decide (a = b), String.ofList, true⟩ ⟨2, true, [], []⟩ true 1
    ⟨some "alicia@example.org".toList, none, none, none⟩

theorem deployed_events : ∀ e ∈ [creating, emailChange], Deployed workingEnv.cfg .keep e := by
  simp only [List.forall_mem_cons, List.not_mem_nil, false_imp_iff, implies_true, and_true]
  refine ⟨?_, ?_⟩
  · rintro env ⟨⟩
    exact ⟨rfl, rfl⟩
  · rintro env ⟨⟩

def emailChanged : World := run step (start aliceSite) [creating, emailChange]

/-- The certificate of a new key. -/
theorem namesAccount_created :
    NamesAccount workingEnv.cfg .keep created.site 1 aliceCertificate := by
  have hdeployed : ∀ e ∈ [creating], Deployed workingEnv.cfg .keep e :=
    fun e he => deployed_events e (List.mem_cons.mpr (.inl (List.mem_singleton.mp he)))
  have hkey : aliceKey ∈ created.site.sshKeys.rows := by decide
  have hdownload : download created = (.ok (aliceCertificate, filename), (download created).2) :=
    Prod.ext (by decide) rfl
  refine (namesAccount_download_iff aliceSite [creating] hdeployed rfl rfl hkey hdownload).mpr ?_
  intro _ _ _
  decide

/-- Alice changes her e-mail; her certificate still names the account she had before. -/
theorem certificate_outlives_name :
    ¬ ∀ (cfg : Settings) (T : CaseTable) (site : Site) (events : List Event) (env : Env)
      (caller : Caller) (key : SSHKey) (body : SignedCertificate) (filename : List Char) (db' : Db),
      (∀ e ∈ events, Deployed cfg T e) → env.cfg = cfg → env.caseTable = T →
      key ∈ (run step (start site) events).site.sshKeys →
      downloadCertificate env caller key.id (run step (start site) events).site.toDb =
        (.ok (body, filename), db') →
      NamesAccount cfg T (run step (start site) events).site key.user body := by
  intro h
  have hkey : aliceKey ∈ emailChanged.site.sshKeys.rows := by decide
  have hdownload : download emailChanged =
      (.ok (aliceCertificate, filename), (download emailChanged).2) := Prod.ext (by decide) rfl
  obtain ⟨p, hp, hall⟩ := h workingEnv.cfg .keep aliceSite [creating, emailChange] workingEnv _ aliceKey
    _ _ _ deployed_events rfl rfl hkey hdownload
  have haccess : accountAccess workingEnv.cfg .keep 1 emailChanged.site = .ok
      [⟨1, "alicia@example.org".toList, "alicia@example.org".toList, "alicia_example_org_1".toList⟩] := by
    decide
  have hname := hall 1 _ haccess _ (List.mem_singleton_self _) rfl
  have hone : principals aliceCertificate = ["alice_1".toList] := by decide
  rw [← hname] at hp
  exact absurd (hone.symm.trans hp) (by decide)

end Keywarden.CertificatePrincipal
