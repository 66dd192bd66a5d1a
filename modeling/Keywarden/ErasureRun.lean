import Keywarden.AccessRun
import Keywarden.Authorization
import Keywarden.Profile
import Keywarden.Shell

/-!
# Runs after an erasure

A user has access through an account, through a request, or through a key or a
certificate. Erasing the user takes all three, and the background jobs, the reports
of agents and the requests of users who are no administrators give none back, with
one exception: whoever was granted permissions on a key of the erased user.
-/
namespace Keywarden.ErasureRun

open Rows Text Transitions Keys Erasure Authorization

/-! ## The system -/

inductive Event where
  | access : Settings → Instant → AccessRun.Op → Event
  | keys : KeyApi.Event → Event
  | profile : Env → Caller → Profile.ProfileForm → Event
  | connect : Env → Except String (List Char) → Caller → Nat → Event
  | login : UserId → Instant → Event
  | syncObjectPerms : Event
  | syncReport : Instant → Nat → ServerAccounts.SyncReportIn → Event

/-- `update_last_login`. -/
def loggedIn (now : Instant) : Table.Edit User where
  apply u := { u with lastLogin := some now }
  key_apply _ := rfl

/-- Only an active user can log in. -/
def login (user : UserId) (now : Instant) (db : Db) : Db :=
  { db with users := db.users.update (fun u => u.id = user && u.isActive) (loggedIn now) }

def step (site : Site) : Event → Site
  | .access cfg now op => site.over fun db => AccessRun.apply cfg now db op
  | .keys e => site.over fun db => KeyApi.step db e
  | .profile env caller form => site.over fun db => (Profile.profile env caller form db).2
  | .connect env sessionKey caller serverId =>
    site.over fun db => (Shell.connect env sessionKey caller serverId db).2
  | .login user now => site.over (login user now)
  | .syncObjectPerms => syncObjectPerms site
  | .syncReport now serverId payload =>
    site.over fun db => (ServerAccounts.syncReport now serverId payload db).2

/-- The handlers do not take the caller for an administrator. -/
structure NonAdministrator (caller : Caller) : Prop where
  keys : ¬ (caller.hasPerm .addSshkey = true ∧ caller.hasPerm .viewSshkey = true)
  requests : caller.hasPerm .changeAccessrequest = false

/-- A request of a user who is no administrator, or of nobody. -/
structure Requests (site : Site) (caller : Caller) : Prop where
  nonAdministrator : NonAdministrator caller
  represents : caller.isAuthenticated = true → ∃ user ∈ site.users, Represents site user caller

/-- What may happen after the erasure. -/
def Admissible (site : Site) : Event → Prop
  | .access _ _ (.createRequest caller _) | .access _ _ (.updateRequest caller _ _) =>
    Requests site caller
  | .keys e =>
    match e.op with
    | .createKey caller _ | .issueCertificate caller _ | .downloadCertificate caller _
    | .downloadCertificateHash caller _ | .updateKey caller _ _ | .deleteKey caller _ =>
      Requests site caller
    | .process .. => True
  | .profile _ caller _ | .connect _ _ caller _ => Requests site caller
  | _ => True

/-- No certificate is requested for a key of `u`, and none of them is activated, by
somebody who has the permission to. -/
def Spares (u : UserId) (site : Site) : Event → Prop
  | .keys e =>
    match e.op with
    | .issueCertificate caller keyId =>
      ∀ key, KeyApi.findKey caller .viewSshkey keyId site.toDb = .ok key → key.user ≠ u
    | .updateKey caller keyId payload => payload.isActive = some true →
      ∀ key key', KeyApi.findKey caller .changeSshkey keyId site.toDb = .ok key →
        KeyApi.renamed payload.name key = .ok key' → key.user ≠ u
    | _ => True
  | _ => True

/-- No server lets the user in, and no key or certificate of the user is active. -/
structure Gone (u : UserId) (site : Site) : Prop where
  agents : ∀ server, ∀ user ∈ resolveAccessUsers server site, user.id ≠ u
  shell : ∀ user ∈ site.users, user.id = u → ∀ caller, Represents site user caller →
    ∀ server now, Shell.userCanShell caller server now site.toDb = false
  role : ∀ user ∈ site.users, user.id = u →
    user.isSuperuser = false ∧ ∀ role ∈ roleOrder, role ∉ user.groups
  keys : ∀ k ∈ site.sshKeys, k.user = u → k.isActive = false
  certificates : ∀ c ∈ site.sshCertificates, c.user = u → c.isActive = false

/-! ## The three ways to access -/

def HasAccount (u : UserId) (db : Db) : Prop :=
  ∃ user ∈ db.users, user.id = u ∧
    (user.isActive = true ∨ user.isSuperuser = true ∨ user.groups ≠ ∅)

def HasRequest (u : UserId) (db : Db) : Prop :=
  ∃ r ∈ db.accessRequests, r.requester = u ∧ (r.status = .pending ∨ r.status = .approved)

def HasCredential (u : UserId) (db : Db) : Prop :=
  (∃ k ∈ db.sshKeys, k.user = u ∧ k.isActive = true) ∨
    ∃ c ∈ db.sshCertificates, c.user = u ∧ c.isActive = true

/-- The user has access in no way. -/
structure Cut (u : UserId) (db : Db) : Prop where
  account : ¬ HasAccount u db
  request : ¬ HasRequest u db
  credential : ¬ HasCredential u db

/-- `db'` gives the user no way to access that `db` does not. -/
structure NoGain (u : UserId) (db db' : Db) : Prop where
  account : HasAccount u db' → HasAccount u db
  request : HasRequest u db' → HasRequest u db
  credential : HasCredential u db' → HasCredential u db

theorem NoGain.refl (u : UserId) (db : Db) : NoGain u db db := ⟨id, id, id⟩

theorem NoGain.trans {u : UserId} {a b c : Db} (hab : NoGain u a b) (hbc : NoGain u b c) :
    NoGain u a c :=
  ⟨hab.account ∘ hbc.account, hab.request ∘ hbc.request, hab.credential ∘ hbc.credential⟩

theorem NoGain.cut {u : UserId} {db db' : Db} (h : NoGain u db db') (hc : Cut u db) : Cut u db' :=
  ⟨hc.account ∘ h.account, hc.request ∘ h.request, hc.credential ∘ h.credential⟩

/-- Only four tables matter. -/
theorem NoGain.of_eq {u : UserId} {db db' : Db} (hu : db'.users = db.users)
    (hr : db'.accessRequests = db.accessRequests) (hk : db'.sshKeys = db.sshKeys)
    (hc : db'.sshCertificates = db.sshCertificates) : NoGain u db db' := by
  refine ⟨?_, ?_, ?_⟩
  · rw [HasAccount, hu]; exact id
  · rw [HasRequest, hr]; exact id
  · rw [HasCredential, hk, hc]; exact id

/-- A user without any of them is gone. -/
theorem gone_of_cut {u : UserId} {site : Site} (h : Cut u site.toDb) : Gone u site := by
  have haccount : ∀ user ∈ site.users, user.id = u →
      user.isActive = false ∧ user.isSuperuser = false ∧ user.groups = ∅ := by
    intro user hm hid
    refine ⟨?_, ?_, ?_⟩
    · by_contra hne
      exact h.account ⟨user, hm, hid, .inl (by simpa using hne)⟩
    · by_contra hne
      exact h.account ⟨user, hm, hid, .inr (.inl (by simpa using hne))⟩
    · by_contra hne
      exact h.account ⟨user, hm, hid, .inr (.inr hne)⟩
  refine ⟨?_, ?_, ?_, ?_, ?_⟩
  · intro server user hm hid
    obtain ⟨hm, _, hactive⟩ := (mem_resolveAccessUsers server site user).mp hm
    rw [(haccount user hm hid).1] at hactive
    cases hactive
  · intro user hm hid caller hrep server now
    rw [Shell.userCanShell, hrep.objectPerm, hasObjectPerm_inactive (haccount user hm hid).1,
      Bool.false_or]
    by_contra hany
    rw [Bool.not_eq_false, Table.any_iff] at hany
    obtain ⟨r, hr, hgrant⟩ := hany
    simp only [Access.grants, Bool.and_eq_true, decide_eq_true_eq] at hgrant
    exact h.request ⟨r, hr, hgrant.1.1.1.1.trans (hrep.id.trans hid), .inr hgrant.1.1.2⟩
  · intro user hm hid
    obtain ⟨_, hsuper, hgroups⟩ := haccount user hm hid
    exact ⟨hsuper, fun role _ => by rw [hgroups]; exact Finset.notMem_empty role⟩
  · intro k hk hu
    by_contra hact
    exact h.credential (.inl ⟨k, hk, hu, by simpa using hact⟩)
  · intro c hc hu
    by_contra hact
    exact h.credential (.inr ⟨c, hc, hu, by simpa using hact⟩)

/-! ## Credentials -/

/-- A key of somebody else is created. -/
theorem credential_createKey {u : UserId} {db db' : Db} {key : SSHKey} (hne : key.user ≠ u)
    (hk : db'.sshKeys = db.sshKeys.create fun id => { key with id := id })
    (hc : ∀ c ∈ db'.sshCertificates, c.user = u → c ∈ db.sshCertificates) :
    HasCredential u db' → HasCredential u db := by
  rintro (⟨k, hkm, hu, hact⟩ | ⟨c, hcm, hu, hact⟩)
  · rw [hk] at hkm
    obtain hold | rfl := (Table.mem_create _ _ (fun _ => rfl) k).mp hkm
    · exact .inl ⟨k, hold, hu, hact⟩
    · exact absurd hu hne
  · exact .inr ⟨c, hc c hcm hu, hu, hact⟩

theorem mem_upsert_of_user {u : UserId} {t : Table SSHCertificate} {cert : SSHCertificate}
    (hne : cert.user ≠ u) : ∀ c ∈ t.upsert cert, c.user = u → c ∈ t := by
  intro c hc hu
  obtain rfl | ⟨hc, _⟩ := (Table.mem_upsert _ _ _).mp hc
  · exact absurd hu hne
  · exact hc

/-- A certificate is put in place for a user who has a credential already. -/
theorem credential_upsert {u : UserId} {db db' : Db} {cert : SSHCertificate}
    (hcert : cert.user = u → HasCredential u db) (hk : db'.sshKeys = db.sshKeys)
    (hc : db'.sshCertificates = db.sshCertificates.upsert cert) :
    HasCredential u db' → HasCredential u db := by
  rintro (⟨k, hkm, hu, hact⟩ | ⟨c, hcm, hu, hact⟩)
  · exact .inl ⟨k, hk ▸ hkm, hu, hact⟩
  · rw [hc] at hcm
    obtain rfl | ⟨hcm, _⟩ := (Table.mem_upsert _ _ _).mp hcm
    · exact hcert hu
    · exact .inr ⟨c, hcm, hu, hact⟩

/-- A key is written back that is no more active than it was. -/
theorem credential_saveKey {u : UserId} {db db' : Db} {key key' : SSHKey} (hkey : key ∈ db.sshKeys)
    (huser : key'.user = key.user) (hact : key.user = u → key'.isActive = true → key.isActive = true)
    (hk : db'.sshKeys = db.sshKeys.save key') (hc : db'.sshCertificates = db.sshCertificates) :
    HasCredential u db' → HasCredential u db := by
  rintro (⟨k, hkm, hu, ha⟩ | ⟨c, hcm, hu, ha⟩)
  · rw [hk] at hkm
    obtain ⟨rfl, _⟩ | ⟨hkm, _⟩ := (Table.mem_save _ _ _).mp hkm
    · exact .inl ⟨key, hkey, huser.symm.trans hu, hact (huser.symm.trans hu) ha⟩
    · exact .inl ⟨k, hkm, hu, ha⟩
  · exact .inr ⟨c, hc ▸ hcm, hu, ha⟩

/-- A row that is active after a bulk revocation was there before. -/
theorem key_of_revoke {p : SSHKey → Bool} {now : Instant} {t : Table SSHKey} :
    ∀ k ∈ t.update p (revokedKey now), k.isActive = true → k ∈ t := by
  intro k hk ha
  obtain ⟨o, ho, _, _, ⟨hin, _⟩ | ⟨rfl, _⟩⟩ := KeyRun.mem_revokedKey hk
  · rw [hin] at ha
    cases ha
  · exact ho

theorem certificate_of_revoke {p : SSHCertificate → Bool} {now : Instant} {t : Table SSHCertificate} :
    ∀ c ∈ t.update p (revokedCertificate now), c.isActive = true → c ∈ t := by
  intro c hc ha
  obtain ⟨o, ho, _, _, ⟨hin, _⟩ | ⟨rfl, _⟩⟩ := KeyRun.mem_revoked hc
  · rw [hin] at ha
    cases ha
  · exact ho

theorem credential_of_active {u : UserId} {db db' : Db}
    (hk : ∀ k ∈ db'.sshKeys, k.isActive = true → k ∈ db.sshKeys)
    (hc : ∀ c ∈ db'.sshCertificates, c.isActive = true → c ∈ db.sshCertificates) :
    HasCredential u db' → HasCredential u db := by
  rintro (⟨k, hkm, hu, ha⟩ | ⟨c, hcm, hu, ha⟩)
  · exact .inl ⟨k, hk k hkm ha, hu, ha⟩
  · exact .inr ⟨c, hc c hcm ha, hu, ha⟩

/-! ## The erasure -/

theorem cut_process {self : ErasureRequest} (hs : self.status ≠ .processed) (adminUser : UserId)
    (reason token : List Char) (now : Instant) (db : Db) :
    Cut self.user (process self adminUser reason token now db).2 := by
  rw [process, if_neg hs]
  refine ⟨?_, ?_, ?_⟩
  · rintro ⟨user, hm, hid, h⟩
    obtain ⟨o, _, rfl⟩ := (Table.mem_update _ _ _ _).mp hm
    by_cases ho : o.id = self.user
    · simp [ho, anonymous] at h
    · simp [ho] at hid
  · rintro ⟨r, hr, hu, h⟩
    obtain ⟨_, h₁, h₂⟩ | ⟨hne, _⟩ := mem_erasedRequests hr
    · exact h.elim h₁ h₂
    · exact hne hu
  · rintro (⟨k, hk, hu, ha⟩ | ⟨c, hc, hu, ha⟩)
    · rw [revokedKey_inactive hk hu] at ha
      cases ha
    · rw [revokedCertificate_inactive hc hu] at ha
      cases ha

/-- The erasure of anybody gives nobody access. -/
theorem process_noGain (u : UserId) (self : ErasureRequest) (adminUser : UserId)
    (reason token : List Char) (now : Instant) (db : Db) :
    NoGain u db (process self adminUser reason token now db).2 := by
  unfold process
  split
  · exact NoGain.refl u db
  · refine ⟨?_, ?_, credential_of_active key_of_revoke certificate_of_revoke⟩
    · rintro ⟨user, hm, hid, h⟩
      obtain ⟨o, ho, rfl⟩ := (Table.mem_update _ _ _ _).mp hm
      by_cases hou : o.id = self.user
      · simp [hou, anonymous] at h
      · simp only [hou, decide_false, Bool.false_eq_true, if_false] at hid h
        exact ⟨o, ho, hid, h⟩
    · rintro ⟨r, hr, hu, h⟩
      obtain ⟨_, h₁, h₂⟩ | ⟨_, ho⟩ := mem_erasedRequests hr
      · exact absurd h (not_or.mpr ⟨h₁, h₂⟩)
      · exact ⟨r, ho, hu, h⟩

/-! ## Access requests -/

/-- The caller of a request is somebody else, the user having no account. -/
theorem Requests.id_ne {u : UserId} {site : Site} {caller : Caller} (h : Requests site caller)
    (hu : ¬ HasAccount u site.toDb) (hauth : caller.isAuthenticated = true) : caller.id ≠ u := by
  obtain ⟨user, hm, hrep⟩ := h.represents hauth
  intro hid
  exact hu ⟨user, hm, hrep.id.symm.trans hid, .inl (hrep.authenticated.symm.trans hauth)⟩

theorem createRequest_noGain {u : UserId} {cfg : Settings} {caller : Caller} {now : Instant}
    {payload : Access.AccessRequestCreateIn} {db db' : Db} {r : AccessRequest}
    (hne : caller.isAuthenticated = true → caller.id ≠ u)
    (h : Access.createRequest cfg caller now payload db = .ok (r, db')) : NoGain u db db' := by
  obtain ⟨hauth, rfl, rfl⟩ := Access.createRequest_ok h
  obtain ⟨p, hp⟩ := Access.assignAccessRequestPerms_frame now
    (Access.newRequest cfg caller now payload payload.serverId db.accessRequests.fresh) true
    { db with accessRequests :=
        db.accessRequests.create (Access.newRequest cfg caller now payload payload.serverId) }
  rw [hp]
  refine ⟨id, ?_, id⟩
  rintro ⟨q, hq, hu, hlive⟩
  obtain hold | rfl := (Table.mem_create _ _ (fun _ => rfl) q).mp hq
  · exact ⟨q, hold, hu, hlive⟩
  · exact absurd hu (hne hauth)

theorem updateRequest_noGain {u : UserId} {cfg : Settings} {caller : Caller} {now : Instant}
    {requestId : Nat} {payload : Access.AccessRequestUpdateIn} {db db' : Db} {r : AccessRequest}
    (hn : caller.hasPerm .changeAccessrequest = false)
    (h : Access.updateRequest cfg caller now requestId payload db = .ok (r, db')) :
    NoGain u db db' := by
  obtain ⟨row, hrow, -, hr, rfl⟩ := Access.updateRequest_ok h
  obtain ⟨p, hp⟩ := Access.resynced_frame now r false
    { db with accessRequests := db.accessRequests.save r }
  rw [Access.saveRequest, hp]
  refine ⟨id, ?_, id⟩
  rintro ⟨o, ho, hu, hlive⟩
  obtain ⟨rfl, _⟩ | ⟨ho, _⟩ := (Table.mem_save _ _ _).mp ho
  · obtain rfl | ⟨_, rfl⟩ := Access.applyUpdate_unprivileged hn hr
    · exact ⟨o, hrow, hu, hlive⟩
    · simp at hlive
  · exact ⟨o, ho, hu, hlive⟩

theorem expireOne_noGain (u : UserId) (now : Instant) (db : Db) (r : AccessRequest) :
    NoGain u db (Access.expireOne now db r) := by
  obtain ⟨p, heq⟩ := Access.expireOne_frame now db r
  refine ⟨?_, ?_, ?_⟩
  · rw [heq]; exact id
  · rintro ⟨o, ho, hu, hlive⟩
    obtain hexp | ho := AccessRun.mem_expireOne ho
    · simp [hexp] at hlive
    · exact ⟨o, ho, hu, hlive⟩
  · rw [heq]; exact id

theorem expireAccessRequests_noGain (u : UserId) (now : Instant) (db : Db) :
    NoGain u db (Access.expireAccessRequests now db).2 := by
  unfold Access.expireAccessRequests
  generalize Access.expiring now db = l
  induction l generalizing db with
  | nil => exact NoGain.refl u db
  | cons r l ih => exact (expireOne_noGain u now db r).trans (ih (Access.expireOne now db r))

/-! ## Keys -/

/-- Calls one after the other. -/
theorem noGain_bind {α β : Type} {u : UserId} {c : Call α} {next : α → Call β} {db : Db}
    (hc : NoGain u db (c db).2) (hnext : ∀ a, NoGain u (c db).2 (next a (c db).2).2) :
    NoGain u db ((c.bind next) db).2 := by
  obtain heq | ⟨a, heq⟩ := Call.bind_db c next db
  · rw [heq]
    exact hc
  · rw [heq]
    exact hc.trans (hnext a)

theorem issue_noGain {u : UserId} {key : SSHKey} (hne : key.user ≠ u) (env : Env)
    (createdBy : Option UserId) (db : Db) :
    NoGain u db (issueCertificateForKey env key createdBy db).2 := by
  obtain ⟨t, ⟨e, he⟩ | ⟨cert, _, huser, _, _, he⟩⟩ :=
    issueCertificateForKey_cases env key createdBy db
  · rw [he]
    exact NoGain.of_eq rfl rfl rfl rfl
  · rw [he]
    exact ⟨id, id, credential_upsert (fun h => absurd (huser.symm.trans h) hne) rfl rfl⟩

theorem revokeCertificate_noGain (u : UserId) (env : Env) (key : SSHKey) (db : Db) :
    NoGain u db (revokeCertificateForKey env key db).2 := by
  unfold revokeCertificateForKey
  split
  · exact NoGain.refl u db
  · split
    · exact ⟨id, id, credential_of_active (fun _ hk _ => hk) certificate_of_revoke⟩
    · exact NoGain.refl u db

theorem saveKey_noGain {u : UserId} {db : Db} {key key' : SSHKey} (hkey : key ∈ db.sshKeys)
    (huser : key'.user = key.user) (hact : key.user = u → key'.isActive = true → key.isActive = true)
    (env : Env) : NoGain u db (KeyApi.saveKey env key' db).2 := by
  unfold KeyApi.saveKey
  split
  · exact ⟨id, id, credential_saveKey hkey huser hact rfl rfl⟩
  · exact NoGain.refl u db

theorem keyOwner_self {caller : Caller} {userId : Option Int} {db : Db} {owner : UserId}
    (hn : ¬ (caller.hasPerm .addSshkey = true ∧ caller.hasPerm .viewSshkey = true))
    (h : KeyApi.keyOwner caller userId db = .ok owner) : owner = caller.id := by
  unfold KeyApi.keyOwner at h
  simp only [Bool.and_eq_true, if_neg hn] at h
  split at h
  · cases h
    rfl
  · split at h
    · cases h
      rfl
    · split at h
      · cases h
      · cases h
        rfl

theorem createKey_noGain {u : UserId} {caller : Caller}
    (hne : caller.isAuthenticated = true → caller.id ≠ u)
    (hn : ¬ (caller.hasPerm .addSshkey = true ∧ caller.hasPerm .viewSshkey = true)) (env : Env)
    (payload : KeyApi.KeyCreateIn) (db : Db) :
    NoGain u db (KeyApi.createKey env caller payload db).2 := by
  obtain he | ⟨k, cert, hauth, howner, _, _, _, _, hcert, hu, hr, hk, hc⟩ :=
    KeyRun.createKey_cases env caller payload db
  · rw [he]
    exact NoGain.refl u db
  · have hku : k.user ≠ u := keyOwner_self hn howner ▸ hne hauth
    refine ⟨?_, ?_, credential_createKey hku hk ?_⟩
    · rw [HasAccount, hu]; exact id
    · rw [HasRequest, hr]; exact id
    · rw [hc]
      exact mem_upsert_of_user (hcert.symm ▸ hku)

theorem downloaded_noGain (u : UserId) (env : Env) (caller : Caller) (keyId : Nat) (db : Db) :
    NoGain u db (KeyApi.downloaded env caller keyId db).2 := by
  obtain ⟨t, he | ⟨k, hk, cert, hact, _, huser, _, he⟩⟩ :=
    KeyRun.downloaded_cases env caller keyId db
  · rw [he]
    exact NoGain.of_eq rfl rfl rfl rfl
  · rw [he]
    exact ⟨id, id, credential_upsert (fun h => .inl ⟨k, hk, huser.symm.trans h, hact⟩) rfl rfl⟩

theorem issueCertificate_noGain {u : UserId} {caller : Caller} {keyId : Nat} {db : Db}
    (hspared : ∀ key, KeyApi.findKey caller .viewSshkey keyId db = .ok key → key.user ≠ u)
    (env : Env) : NoGain u db (KeyApi.issueCertificate env caller keyId db).2 := by
  unfold KeyApi.issueCertificate
  split
  · exact NoGain.refl u db
  · next key hf => exact issue_noGain (hspared key hf) env _ _

theorem updateKey_noGain {u : UserId} {caller : Caller} {keyId : Nat} {payload : KeyApi.KeyUpdateIn}
    {db : Db} (hspared : payload.isActive = some true →
      ∀ key key', KeyApi.findKey caller .changeSshkey keyId db = .ok key →
        KeyApi.renamed payload.name key = .ok key' → key.user ≠ u)
    (env : Env) : NoGain u db (KeyApi.updateKey env caller keyId payload db).2 := by
  obtain hsame | ⟨key, n, hf, hr, hcase⟩ := KeyRun.updateKey_cases env caller keyId payload db
  · rw [hsame]
    exact NoGain.refl u db
  · have hkey := KeyRun.findKey_ok hf
    obtain heq | ⟨hactive, heq⟩ | heq := hcase
    · rw [heq]
      refine saveKey_noGain hkey ?_ ?_ env
      · rfl
      · exact fun _ h => h
    · rw [heq]
      have hne : ({ key with name := n, isActive := true, revokedAt := none } : SSHKey).user ≠ u :=
        hspared hactive key _ hf hr
      refine noGain_bind (issue_noGain hne env (some caller.id) db) fun _ => ?_
      refine saveKey_noGain (?_ : key ∈ _) ?_ ?_ env
      · rw [Call.mapError_db, issueCertificateForKey_sshKeys]
        exact hkey
      · rfl
      · exact fun h => absurd h hne
    · rw [heq]
      refine noGain_bind (revokeCertificate_noGain u env _ db) fun _ => ?_
      refine saveKey_noGain (revokeCertificateForKey_sshKeys env _ db ▸ hkey) ?_ ?_ env
      · rfl
      · exact fun _ h => nomatch h

theorem deleteKey_noGain (u : UserId) (env : Env) (caller : Caller) (keyId : Nat) (db : Db) :
    NoGain u db (KeyApi.deleteKey env caller keyId db).2 := by
  obtain hsame | ⟨key, _, heq⟩ := KeyRun.deleteKey_cases env caller keyId db
  · rw [hsame]
    exact NoGain.refl u db
  · have hkeys : NoGain u db { db with
        sshKeys := db.sshKeys.update (fun k => k.id = key.id) (revokedKey env.now) } :=
      ⟨id, id, credential_of_active key_of_revoke fun _ hc _ => hc⟩
    rw [heq]
    exact hkeys.trans (revokeCertificate_noGain u env key _)

/-! ## The other requests and jobs -/

theorem added_noGain {u user : UserId} {db db' : Db} (h : Profile.Added user db db')
    (hne : user ≠ u) : NoGain u db db' := by
  obtain rfl | ⟨key, p, t, hkey, rfl | ⟨cert, hcert, rfl⟩⟩ := h
  · exact NoGain.refl u _
  · exact ⟨id, id, credential_createKey (hkey.symm ▸ hne) rfl fun _ hc _ => hc⟩
  · exact ⟨id, id, credential_createKey (hkey.symm ▸ hne) rfl
      (mem_upsert_of_user (hcert.symm ▸ hne))⟩

theorem profile_noGain {u : UserId} {caller : Caller}
    (hne : caller.isAuthenticated = true → caller.id ≠ u) (env : Env) (form : Profile.ProfileForm)
    (db : Db) : NoGain u db (Profile.profile env caller form db).2 := by
  unfold Profile.profile
  split
  · exact NoGain.refl u db
  · next hauth =>
    cases form with
    | sshKey name publicKey =>
      exact added_noGain (Profile.postKey_added env caller name publicKey db)
        (hne (by simpa using hauth))
    | erasure reason =>
      obtain ⟨t, ht⟩ := Profile.postErasure_frame env caller reason db
      simp only [ht]
      exact NoGain.of_eq rfl rfl rfl rfl

theorem connect_frame (env : Env) (sessionKey : Except String (List Char)) (caller : Caller)
    (serverId : Nat) (db : Db) :
    ∃ t, (Shell.connect env sessionKey caller serverId db).2 =
      { db with certificateAuthorities := t } := by
  have hgen : ∀ user principal, ∃ t, (Shell.generateSessionKeypair env sessionKey user principal db).2 =
      { db with certificateAuthorities := t } := by
    intro user principal
    obtain ⟨t, ht⟩ := getActiveCa_frame env (some user.id) db
    unfold Shell.generateSessionKeypair Call.bind
    split
    · next heq =>
      rw [heq] at ht
      exact ⟨t, ht⟩
    · next heq =>
      rw [heq] at ht
      split <;> exact ⟨t, ht⟩
  unfold Shell.connect
  split
  · exact ⟨_, rfl⟩
  · next user server _ =>
    simp only
    split
    · exact ⟨_, rfl⟩
    · obtain ⟨t, ht⟩ := hgen user (Shell.getSystemUsername env.cfg env.caseTable user server db)
      split
      · next heq =>
        rw [heq] at ht
        exact ⟨t, ht⟩
      · next heq =>
        rw [heq] at ht
        exact ⟨t, ht⟩

theorem login_noGain (u user : UserId) (now : Instant) (db : Db) : NoGain u db (login user now db) := by
  refine ⟨?_, id, id⟩
  rintro ⟨v, hv, hid, h⟩
  obtain ⟨o, ho, rfl⟩ := (Table.mem_update _ _ _ _).mp hv
  refine ⟨o, ho, ?_, ?_⟩
  · split at hid <;> exact hid
  · split at h <;> exact h

/-! ## Runs -/

theorem keys_noGain {u : UserId} {site : Site} {e : KeyApi.Event} (hu : ¬ HasAccount u site.toDb)
    (ha : Admissible site (.keys e)) (hs : Spares u site (.keys e)) :
    NoGain u site.toDb (KeyApi.step site.toDb e) := by
  obtain ⟨env, op⟩ := e
  cases op with
  | createKey caller payload =>
    exact createKey_noGain (Requests.id_ne ha hu) (Requests.nonAdministrator ha).keys env payload _
  | issueCertificate caller keyId => exact issueCertificate_noGain hs env
  | downloadCertificate caller keyId => exact downloaded_noGain u env caller keyId _
  | downloadCertificateHash caller keyId => exact downloaded_noGain u env caller keyId _
  | updateKey caller keyId payload => exact updateKey_noGain hs env
  | deleteKey caller keyId => exact deleteKey_noGain u env caller keyId _
  | process self adminUser reason token => exact process_noGain u self adminUser reason token _ _

theorem access_noGain {u : UserId} {site : Site} {cfg : Settings} {now : Instant} {op : AccessRun.Op}
    (hu : ¬ HasAccount u site.toDb) (ha : Admissible site (.access cfg now op)) :
    NoGain u site.toDb (AccessRun.apply cfg now site.toDb op) := by
  cases op with
  | createRequest caller payload =>
    simp only [AccessRun.apply]
    split
    · next h => exact createRequest_noGain (Requests.id_ne ha hu) h
    · exact NoGain.refl u _
  | updateRequest caller id payload =>
    simp only [AccessRun.apply]
    split
    · next h => exact updateRequest_noGain (Requests.nonAdministrator ha).requests h
    · exact NoGain.refl u _
  | expireAccessRequests => exact expireAccessRequests_noGain u now _
  | process self adminUser reason token => exact process_noGain u self adminUser reason token _ _

theorem step_noGain {u : UserId} {site : Site} {e : Event} (hu : ¬ HasAccount u site.toDb)
    (ha : Admissible site e) (hs : Spares u site e) : NoGain u site.toDb (step site e).toDb := by
  cases e with
  | access cfg now op => exact access_noGain hu ha
  | keys e => exact keys_noGain hu ha hs
  | profile env caller form => exact profile_noGain (Requests.id_ne ha hu) env form _
  | connect env sessionKey caller serverId =>
    obtain ⟨t, ht⟩ := connect_frame env sessionKey caller serverId site.toDb
    simp only [step, over_toDb, ht]
    exact NoGain.of_eq rfl rfl rfl rfl
  | login user now => exact login_noGain u user now _
  | syncObjectPerms =>
    obtain ⟨p, hp⟩ := syncObjectPerms_frame site
    simp only [step, hp, over_toDb]
    exact NoGain.of_eq rfl rfl rfl rfl
  | syncReport now serverId payload =>
    obtain ⟨t, ht⟩ := ServerAccounts.syncReport_frame now serverId payload site.toDb
    simp only [step, over_toDb, ht]
    exact NoGain.of_eq rfl rfl rfl rfl

theorem cut_step {u : UserId} {site : Site} {e : Event} (hc : Cut u site.toDb)
    (h : Admissible site e ∧ Spares u site e) : Cut u (step site e).toDb :=
  (step_noGain hc.account h.1 h.2).cut hc

/-- The site once the request is processed. -/
def erased (self : ErasureRequest) (adminUser : UserId) (reason token : List Char) (now : Instant)
    (site : Site) : Site :=
  site.over fun db => (process self adminUser reason token now db).2

/-- After an erasure the user stays gone, through every run of background jobs, agent
reports and requests of others in which nobody makes use of a permission on a key of
the user to have it certified or activated. -/
theorem gone_after_process (site : Site) (self : ErasureRequest) (adminUser : UserId)
    (reason token : List Char) (now : Instant) (hs : self.status ≠ .processed) (events : List Event)
    (h : Along step (fun site e => Admissible site e ∧ Spares self.user site e)
      (erased self adminUser reason token now site) events) :
    Always step (Gone self.user) (erased self adminUser reason token now site) events := by
  have hstep : ∀ site e, Cut self.user site.toDb → Admissible site e ∧ Spares self.user site e →
      Cut self.user (step site e).toDb := fun _ _ => cut_step
  have hstart : Cut self.user (erased self adminUser reason token now site).toDb :=
    cut_process hs adminUser reason token now site.toDb
  have hcut := always_invariant (I := fun site => Cut self.user site.toDb) hstep hstart h
  rw [always_iff] at hcut ⊢
  exact fun bs hbs => gone_of_cut (hcut bs hbs)

/-! ## The condition is needed -/

/-- Where signing works, a key of the user that is certified or activated on request
leaves the user an active certificate. -/
theorem regains {u : UserId} {site : Site} {e : KeyApi.Event}
    (hu : (site.users.find u).isSome = true) (hw : SigningWorks e.env site.toDb)
    (hs : ¬ Spares u site (.keys e)) :
    ∃ c ∈ (step site (.keys e)).sshCertificates, c.user = u ∧ c.isActive = true := by
  have hissue : ∀ key : SSHKey, key.user = u → ∀ createdBy, ∃ (cert : SSHCertificate) (db' : Db),
      issueCertificateForKey e.env key createdBy site.toDb = (.ok cert, db') ∧
      cert ∈ db'.sshCertificates ∧ cert.user = u ∧ cert.isActive = true := by
    intro key hku createdBy
    obtain ⟨cert, db', hok⟩ := issueCertificateForKey_ok hw (hku ▸ hu) createdBy
    obtain ⟨t, ⟨_, he⟩ | ⟨cert', _, huser, hact, _, he⟩⟩ :=
      issueCertificateForKey_cases e.env key createdBy site.toDb
    · rw [hok] at he
      cases he
    · exact ⟨cert', _, he, (Table.mem_upsert _ _ _).mpr (.inl rfl), huser.trans hku, hact⟩
  obtain ⟨env, op⟩ := e
  cases op with
  | issueCertificate caller keyId =>
    simp only [Spares, not_forall, not_not] at hs
    obtain ⟨key, hf, hku⟩ := hs
    obtain ⟨cert, db', hok, hm, huser, hact⟩ := hissue key hku (some caller.id)
    refine ⟨cert, ?_, huser, hact⟩
    simp only [step, over_toDb, KeyApi.step, KeyApi.issueCertificate, hf]
    rw [hok]
    exact hm
  | updateKey caller keyId payload =>
    simp only [Spares, not_forall, not_not] at hs
    obtain ⟨hactive, key, key', hf, hr, hku⟩ := hs
    obtain ⟨n, rfl⟩ := KeyRun.renamed_ok hr
    obtain ⟨cert, db', hok, hm, huser, hact⟩ :=
      hissue { key with name := n, isActive := true, revokedAt := none } hku (some caller.id)
    refine ⟨cert, ?_, huser, hact⟩
    simp only [step, over_toDb, KeyApi.step, KeyApi.updateKey, hf, hr, hactive, reduceCtorEq,
      and_false, if_false, Call.bind, Call.mapError]
    rw [hok]
    simp only [Except.mapError, KeyApi.saveKey]
    split <;> exact hm
  | createKey _ _ | downloadCertificate _ _ | downloadCertificateHash _ _ | deleteKey _ _
  | process _ _ _ _ => exact absurd trivial hs

/-- So in a run in which signing works the user stays gone only if the keys are spared. -/
theorem spares_of_gone {u : UserId} {site : Site} {events : List Event} (hc : Cut u site.toDb)
    (hw : Along step (fun site e => Admissible site e ∧ (site.users.find u).isSome = true ∧
      ∀ k, e = .keys k → SigningWorks k.env site.toDb) site events)
    (h : Always step (Gone u) site events) : Along step (Spares u) site events := by
  induction events generalizing site with
  | nil => trivial
  | cons e events ih =>
    obtain ⟨⟨ha, hu, hsign⟩, hw⟩ := hw
    have hspares : Spares u site e := by
      cases e with
      | keys k =>
        by_contra hs
        obtain ⟨c, hm, hcu, hact⟩ := regains hu (hsign k rfl) hs
        rw [(always_head h.2).certificates c hm hcu] at hact
        cases hact
      | _ => trivial
    exact ⟨hspares, ih (cut_step hc ⟨ha, hspares⟩) hw h.2⟩

/-! ## A key that was shared -/

def bob : User := { alice with id := 2, username := "bob".toList, email := "bob@example.org".toList }

def laptop : SSHKey where
  id := 1
  user := 1
  name := "laptop".toList
  publicKey := "ssh-ed25519 AAAA".toList
  keyType := "ssh-ed25519".toList
  fingerprint := "SHA256:cJ6AyISHomEeHuTfufI".toList
  isActive := true
  createdAt := 0
  revokedAt := none

/-- Alice has a key, which an administrator has let Bob see. -/
def shared : Site where
  users := (Table.empty.insert alice).insert bob
  sshKeys := Table.empty.insert laptop
  userObjectPermissions := {⟨2, .viewSshkey, 1⟩}
  groupPermissions := {(roleUser, .addAccessrequest), (roleUser, .addSshkey)}

def erasure : ErasureRequest where
  id := 1
  user := 1
  reason := "please erase me".toList
  status := .pending
  requestedAt := 0
  decidedAt := none
  decidedBy := none
  decisionReason := []
  processedAt := none
  processedBy := none

/-- Bob, as the permissions of the site have it. -/
def bobCaller : Caller where
  id := 2
  isAuthenticated := true
  perms := [.addAccessrequest, .addSshkey]
  objectPerms := [(.viewSshkey, 1)]

def afterErasure : Site := erased erasure 3 "verified".toList "0f".toList 900 shared

theorem bobCaller_requests : Requests afterErasure bobCaller := by
  refine ⟨⟨by decide, by decide⟩, fun _ => ⟨bob, by decide, rfl, rfl, ?_, ?_⟩⟩
  · intro p
    cases p <;> decide
  · intro p object
    have hperms : afterErasure.userObjectPermissions = {⟨2, .viewSshkey, 1⟩} := by decide
    have hgroups : afterErasure.groupObjectPermissions = ∅ := rfl
    rw [Bool.eq_iff_iff]
    simp [Caller.hasObjectPerm, bobCaller, hasObjectPerm, granted, hperms, hgroups, bob, alice]

/-- Refused the certificate file of the key, Bob has given Alice nothing. -/
theorem gone_after_download :
    Always step (Gone 1) afterErasure [.keys ⟨workingEnv, .downloadCertificate bobCaller 1⟩,
      .syncObjectPerms, .access AccessRun.utc 2000 .expireAccessRequests] :=
  gone_after_process shared erasure 3 "verified".toList "0f".toList 900 (by decide) _
    ⟨⟨bobCaller_requests, trivial⟩, ⟨trivial, trivial⟩, ⟨trivial, trivial⟩, trivial⟩

set_option maxRecDepth 4000 in
/-- Asked for a new certificate, the API issues one for the disabled key of the user
who was erased. -/
theorem certified_after_erasure :
    ¬ ∀ (site : Site) (self : ErasureRequest) (adminUser : UserId) (reason token : List Char)
        (now : Instant) (events : List Event), self.status ≠ .processed →
      Along step Admissible (erased self adminUser reason token now site) events →
      Always step (Gone self.user) (erased self adminUser reason token now site) events := by
  intro h
  have hall : Always step (Gone 1) afterErasure
      [.keys ⟨workingEnv, .issueCertificate bobCaller 1⟩] :=
    h shared erasure 3 "verified".toList "0f".toList 900 _ (by decide) ⟨bobCaller_requests, trivial⟩
  have hcerts : (step afterErasure (.keys ⟨workingEnv, .issueCertificate bobCaller 1⟩)
      ).sshCertificates.toList.map (fun c => (c.user, c.isActive)) = [(1, true)] := by decide
  obtain ⟨c, hc, hc'⟩ := List.mem_map.mp (hcerts ▸ List.mem_singleton_self _)
  simp only [Prod.mk.injEq] at hc'
  have hin := (always_last hall).certificates c hc hc'.1
  rw [hc'.2] at hin
  cases hin

end Keywarden.ErasureRun
