import Keywarden.AccessRun
import Keywarden.AuthoritySteps
import Keywarden.KeyRun
import Keywarden.Users

/-!
# Certificates over runs

A certificate is issued once and handed out until it runs out. Meanwhile its user may
be renamed and the authority that signed it may go out of use. For every key the run
remembers the name of the owner and the authority in use at the moment when the
certificate of the key was last written.
-/
namespace Keywarden.CertificateRun

open Rows Text Transitions Keys KeyApi Username Authorization AuthoritySteps

structure SshCaOut where
  publicKey : List Char
  fingerprint : List Char
  deriving DecidableEq, Repr

def sshCa (env : Env) (serverId : Nat) : Call SshCaOut := fun db =>
  match db.servers.find serverId with
  | none => (.error (.http ⟨404, none, "Server not found"⟩), db)
  | some _ =>
    match getActiveCa env none db with
    | (.error e, db) => (.error e, db)
    | (.ok ca, db) =>
      if ca.publicKey = [] then (.error (.http ⟨404, none, "SSH CA not configured"⟩), db)
      else (.ok ⟨ca.publicKey, ca.fingerprint⟩, db)

/-- The form of the admin site: key material cannot be entered in it. -/
def addedCa (name : List Char) (isActive : Bool) (createdBy : Option UserId) (now : Instant)
    (id : Nat) : SSHCertificateAuthority where
  id := id
  name := name
  publicKey := []
  privateKey := []
  fingerprint := []
  createdAt := now
  revokedAt := none
  isActive := isActive
  createdBy := createdBy

inductive Event where
  | keys (e : KeyApi.Event)
  | updateUser (env : Users.UserEnv) (caller : Caller) (mayChange : Bool) (userId : Int)
      (payload : Users.UserUpdateIn)
  | access (cfg : Settings) (now : Instant) (op : AccessRun.Op)
  | objectPermissions (users : Finset UserObjectPermission) (groups : Finset GroupObjectPermission)
  | sshCa (env : Env) (serverId : Nat)
  | addCa (name : List Char) (isActive : Bool) (createdBy : Option UserId) (now : Instant)
  | deactivateCa (id : Nat)

def apply (site : Site) : Event → Site
  | .keys e => site.over fun db => KeyApi.step db e
  | .updateUser env caller mayChange userId payload =>
    site.over fun db => (Users.updateUser env caller mayChange userId payload db).2
  | .access cfg now op => site.over fun db => AccessRun.apply cfg now db op
  | .objectPermissions users groups =>
    { site.over fun db => { db with userObjectPermissions := users } with
      groupObjectPermissions := groups }
  | .sshCa env serverId => site.over fun db => (sshCa env serverId db).2
  | .addCa name isActive createdBy now => site.over fun db => { db with
      certificateAuthorities := db.certificateAuthorities.create (addedCa name isActive createdBy now) }
  | .deactivateCa id => site.over fun db => { db with
      certificateAuthorities := db.certificateAuthorities.update (fun ca => ca.id = id) deactivated }

/-- The username of the owner and the authority in use when a certificate was written. -/
structure Issue where
  username : List Char
  authority : Option Nat
  deriving DecidableEq, Repr

structure World where
  site : Site
  issues : Nat → Issue

def usernameOf (db : Db) (u : UserId) : List Char := ((db.users.find u).map User.username).getD []

def issueOf (db : Db) (key : Nat) : Issue where
  username := ((db.sshCertificates.find key).map fun c => usernameOf db c.user).getD []
  authority := (latestCa db).map SSHCertificateAuthority.id

def step (w : World) (e : Event) : World where
  site := apply w.site e
  issues key :=
    if (apply w.site e).sshCertificates.find key = w.site.sshCertificates.find key then w.issues key
    else issueOf (apply w.site e).toDb key

/-- No certificate has been issued yet. -/
def start (site : Site) : World :=
  ⟨{ site with sshCertificates := .empty }, fun _ => ⟨[], none⟩⟩

/-- What the calls of an event get from outside. -/
def Event.env : Event → Option Env
  | .keys e => some e.env
  | .sshCa env _ => some env
  | _ => none

/-- Every call uses the settings of the deployment. -/
def Deployed (cfg : Settings) (T : CaseTable) (e : Event) : Prop :=
  ∀ env, e.env = some env → env.cfg = cfg ∧ env.caseTable = T

/-! ## The authority in use -/

def HasMaterial (ca : SSHCertificateAuthority) : Prop := ca.publicKey ≠ [] ∧ ca.privateKey ≠ []

instance (ca : SSHCertificateAuthority) : Decidable (HasMaterial ca) :=
  inferInstanceAs (Decidable (_ ∧ _))

def SignedBy (cert : SignedCertificate) (ca : SSHCertificateAuthority) : Prop :=
  cert.caPrivateKey = ca.privateKey ∧ cert.caPublicKey = strip isSpace ca.publicKey

/-- Material that is there stays, and otherwise it is what `ssh-keygen` makes. -/
theorem ensureMaterial_cases {env : Env} {ca ca' : SSHCertificateAuthority}
    (h : Keys.ensureMaterial env ca = .ok ca') :
    ∃ privateKey publicKey fingerprint,
      ca' = { ca with
        privateKey := privateKey, publicKey := publicKey, fingerprint := fingerprint } ∧
      ((HasMaterial ca ∧ privateKey = ca.privateKey ∧ publicKey = ca.publicKey) ∨
        (¬ HasMaterial ca ∧ ∃ file, env.keygen = .ok (privateKey, file) ∧
          publicKey = strip isSpace file)) := by
  unfold Keys.ensureMaterial at h
  split at h
  · next hmat =>
    split at h
    · split at h
      · cases h
      · cases h
        exact ⟨_, _, _, rfl, .inl ⟨hmat, rfl, rfl⟩⟩
    · cases h
      exact ⟨_, _, _, rfl, .inl ⟨hmat, rfl, rfl⟩⟩
  · next hmat =>
    split at h
    · cases h
    · next privateKey file hgen =>
      split at h
      · cases h
      · cases h
        exact ⟨_, _, _, rfl, .inr ⟨hmat, file, hgen, rfl⟩⟩

/-- What a call makes of the authority in use, or of a new one if there is none. -/
structure Readied (env : Env) (createdBy : Option UserId) (db : Db) (old ca : SSHCertificateAuthority) :
    Prop where
  inUse : old = (latestCa db).getD (newCa env createdBy db.certificateAuthorities.fresh)
  same : ca = { old with
    privateKey := ca.privateKey, publicKey := ca.publicKey, fingerprint := ca.fingerprint }
  material : (HasMaterial old ∧ ca.privateKey = old.privateKey ∧ ca.publicKey = old.publicKey) ∨
    (¬ HasMaterial old ∧ ∃ file, env.keygen = .ok (ca.privateKey, file) ∧
      ca.publicKey = strip isSpace file)

/-- A call fails and writes nothing, or it writes the authority with its material. -/
theorem getActiveCa_cases (env : Env) (createdBy : Option UserId) (db : Db) :
    (∃ e, getActiveCa env createdBy db = (.error e, db)) ∨
    ∃ old ca, Readied env createdBy db old ca ∧ getActiveCa env createdBy db =
      (.ok ca, { db with certificateAuthorities := db.certificateAuthorities.upsert ca }) := by
  unfold getActiveCa
  simp only
  split
  · exact .inl ⟨_, rfl⟩
  · next ca' hensure =>
    split
    · obtain ⟨privateKey, publicKey, fingerprint, rfl, hkeys⟩ := ensureMaterial_cases hensure
      exact .inr ⟨_, _, ⟨rfl, rfl, hkeys⟩, rfl⟩
    · exact .inl ⟨_, rfl⟩

theorem Readied.id {env : Env} {createdBy : Option UserId} {db : Db}
    {old ca : SSHCertificateAuthority} (h : Readied env createdBy db old ca) : ca.id = old.id := by
  rw [h.same]

/-- Writing the authority in use back with other material leaves it in use. -/
theorem latestCa_upsert {db : Db} {ca ca' : SSHCertificateAuthority} (h : latestCa db = some ca)
    (hid : ca'.id = ca.id) (hcreated : ca'.createdAt = ca.createdAt) (huse : inUse ca' = inUse ca) :
    latestCa { db with certificateAuthorities := db.certificateAuthorities.upsert ca' } = some ca' := by
  obtain ⟨hca, hcause⟩ := latestCa_some h
  let t := db.certificateAuthorities
  let f : SSHCertificateAuthority → SSHCertificateAuthority := fun r => if r.id = ca'.id then ca' else r
  have hrows : (t.upsert ca').rows = t.rows.map f := by
    have hsave : ca' ∈ t.save ca' := (Table.mem_save _ _ _).mpr (.inl ⟨rfl, ca, hca, hid.symm⟩)
    rw [Table.upsert, Table.insert, dif_pos ⟨ca', hsave, rfl⟩]
    rfl
  have hsame : ∀ r ∈ t.rows, inUse (f r) = inUse r ∧ (f r).createdAt = r.createdAt := by
    intro r hr
    by_cases hr' : r.id = ca'.id
    · have hrca : r = ca := Table.eq_of_key t hr hca (hr'.trans hid)
      have hf : f r = ca' := if_pos hr'
      rw [hf, hrca]
      exact ⟨huse, hcreated⟩
    · have hf : f r = r := if_neg hr'
      rw [hf]
      exact ⟨rfl, rfl⟩
  have hfilter : (t.rows.map f).filter inUse = (t.rows.filter inUse).map f := by
    rw [List.filter_map]
    congr 1
    exact List.filter_congr fun r hr => (hsame r hr).1
  let later (a b : SSHCertificateAuthority) : Prop := b.createdAt ≤ a.createdAt
  have hsort : ((t.rows.filter inUse).map f).insertionSort later =
      ((t.rows.filter inUse).insertionSort later).map f := by
    refine (List.map_insertionSort later later f _ fun a ha b hb => ?_).symm
    simp only [later, (hsame a (List.mem_of_mem_filter ha)).2, (hsame b (List.mem_of_mem_filter hb)).2]
  calc latestCa { db with certificateAuthorities := t.upsert ca' }
    _ = (((t.rows.map f).filter inUse).insertionSort later).head? := by rw [← hrows]; rfl
    _ = (latestCa db).map f := by rw [hfilter, hsort, List.head?_map]; rfl
    _ = some ca' := by rw [h, Option.map_some]; exact congrArg some (if_pos hid.symm)

/-- The authority that a call gets is in use afterwards. -/
theorem latestCa_getActiveCa {env : Env} {createdBy : Option UserId} {db db' : Db}
    {ca : SSHCertificateAuthority} (h : getActiveCa env createdBy db = (.ok ca, db')) :
    latestCa db' = some ca := by
  obtain ⟨e, he⟩ | ⟨old, ca', hready, he⟩ := getActiveCa_cases env createdBy db
  · rw [he] at h
    cases h
  · rw [he] at h
    cases h
    have hold := hready.inUse
    cases hlatest : latestCa db with
    | some r =>
      rw [hlatest, Option.getD_some] at hold
      subst hold
      refine latestCa_upsert hlatest hready.id ?_ ?_
      · rw [hready.same]
      · rw [hready.same]
        rfl
    | none =>
      rw [hlatest, Option.getD_none] at hold
      have huse : inUse ca = true := by
        rw [hready.same, hold]
        rfl
      refine latestCa_only ((Table.mem_upsert _ _ _).mpr (.inl rfl)) huse fun r hr huse => ?_
      obtain rfl | ⟨hr, _⟩ := (Table.mem_upsert _ _ _).mp hr
      · rfl
      · rw [latestCa_none hlatest r hr] at huse
        cases huse

/-- The authorities a call leaves depend on the authorities it finds alone. -/
theorem getActiveCa_congr (env : Env) (createdBy : Option UserId) {db₁ db₂ : Db}
    (h : db₁.certificateAuthorities = db₂.certificateAuthorities) :
    (getActiveCa env createdBy db₁).2.certificateAuthorities =
      (getActiveCa env createdBy db₂).2.certificateAuthorities := by
  have hlatest : latestCa db₁ = latestCa db₂ := by rw [latestCa, latestCa, h]
  unfold getActiveCa
  simp only [hlatest, h]
  split
  · exact h
  · split
    · rfl
    · exact h

/-- What a call does to an authority with material. -/
theorem getActiveCa_material (env : Env) (createdBy : Option UserId) {db : Db}
    {ca : SSHCertificateAuthority} (hca : ca ∈ db.certificateAuthorities) (hmat : HasMaterial ca) :
    ∃ ca' ∈ (getActiveCa env createdBy db).2.certificateAuthorities, ca'.id = ca.id ∧
      ca'.privateKey = ca.privateKey ∧ ca'.publicKey = ca.publicKey := by
  obtain ⟨e, he⟩ | ⟨old, ca', hready, he⟩ := getActiveCa_cases env createdBy db
  · rw [he]
    exact ⟨ca, hca, rfl, rfl, rfl⟩
  · rw [he]
    have hold := hready.inUse
    by_cases hid : ca.id = ca'.id
    · cases hlatest : latestCa db with
      | none =>
        rw [hlatest, Option.getD_none] at hold
        rw [hready.id, hold] at hid
        exact absurd hid (Nat.ne_of_lt (Table.key_lt_fresh _ hca))
      | some r =>
        rw [hlatest, Option.getD_some] at hold
        subst hold
        obtain rfl : ca = old :=
          Table.eq_of_key _ hca (latestCa_some hlatest).1 (hid.trans hready.id)
        obtain ⟨_, hpriv, hpub⟩ | ⟨hno, _⟩ := hready.material
        · exact ⟨ca', (Table.mem_upsert _ _ _).mpr (.inl rfl), hready.id, hpriv, hpub⟩
        · exact absurd hmat hno
    · exact ⟨ca, (Table.mem_upsert _ _ _).mpr (.inr ⟨hca, hid⟩), rfl, rfl, rfl⟩

/-! ## What a call leaves of the certificates -/

def principalOf (cfg : Settings) (T : CaseTable) (username : List Char) (u : UserId) : List Char :=
  renderSystemUsername T cfg.accountUsernameTemplate username u

/-- The certificate is for the present name of its user and signed by the authority in
use. -/
structure Fresh (cfg : Settings) (T : CaseTable) (db : Db) (c : SSHCertificate) : Prop where
  principal : c.certificate.principals = principalOf cfg T (usernameOf db c.user) c.user
  authority : ∃ ca, latestCa db = some ca ∧ SignedBy c.certificate ca ∧ HasMaterial ca

/-- Every certificate is of a stored key and of its user. -/
def Owned (db : Db) : Prop :=
  ∀ c ∈ db.sshCertificates, ∃ k ∈ db.sshKeys, k.id = c.key ∧ k.user = c.user

/-- A call that issues nothing. -/
structure Plain (db db' : Db) : Prop where
  users : db'.users = db.users
  authorities : db'.certificateAuthorities = db.certificateAuthorities
  certificates : ∀ c ∈ db'.sshCertificates, c ∈ db.sshCertificates ∨ c.isActive = false
  owned : Owned db → Owned db'

/-- A call that may issue a certificate. -/
structure Writes (env : Env) (db db' : Db) : Prop where
  users : db'.users = db.users
  authorities : db'.certificateAuthorities = db.certificateAuthorities ∨
    ∃ createdBy, db'.certificateAuthorities = (getActiveCa env createdBy db).2.certificateAuthorities
  certificates : ∀ c ∈ db'.sshCertificates, c ∈ db.sshCertificates ∨ c.isActive = false ∨
    Fresh env.cfg env.caseTable db' c
  owned : Owned db → Owned db'

theorem Plain.refl (db : Db) : Plain db db := ⟨rfl, rfl, fun _ hc => .inl hc, id⟩

theorem Plain.writes (env : Env) {db db' : Db} (h : Plain db db') : Writes env db db' :=
  ⟨h.users, .inl h.authorities, fun c hc => (h.certificates c hc).imp_right .inl, h.owned⟩

theorem Fresh.congr {cfg : Settings} {T : CaseTable} {db db' : Db} {c : SSHCertificate}
    (h : Fresh cfg T db c) (hu : db'.users = db.users)
    (ha : db'.certificateAuthorities = db.certificateAuthorities) : Fresh cfg T db' c := by
  refine ⟨?_, ?_⟩
  · rw [usernameOf, hu]
    exact h.principal
  · rw [latestCa, ha]
    exact h.authority

theorem Plain.trans_writes {env : Env} {a b c : Db} (hab : Plain a b) (hbc : Writes env b c) :
    Writes env a c := by
  refine ⟨hbc.users.trans hab.users, ?_, ?_, hbc.owned ∘ hab.owned⟩
  · obtain h | ⟨createdBy, h⟩ := hbc.authorities
    · exact .inl (h.trans hab.authorities)
    · exact .inr ⟨createdBy, h.trans (getActiveCa_congr env createdBy hab.authorities)⟩
  · intro r hr
    obtain hr | hr | hr := hbc.certificates r hr
    · exact (hab.certificates r hr).imp_right .inl
    · exact .inr (.inl hr)
    · exact .inr (.inr hr)

theorem Writes.trans_plain {env : Env} {a b c : Db} (hab : Writes env a b) (hbc : Plain b c) :
    Writes env a c := by
  refine ⟨hbc.users.trans hab.users, ?_, ?_, hbc.owned ∘ hab.owned⟩
  · rw [hbc.authorities]
    exact hab.authorities
  · intro r hr
    obtain hr | hr := hbc.certificates r hr
    · obtain hr | hr | hr := hab.certificates r hr
      · exact .inl hr
      · exact .inr (.inl hr)
      · exact .inr (.inr (hr.congr hbc.users hbc.authorities))
    · exact .inr (.inl hr)

theorem writes_bind {α β : Type} {env : Env} {c : Call α} {next : α → Call β} {db : Db}
    (hc : Writes env db (c db).2) (hnext : ∀ a, Plain (c db).2 (next a (c db).2).2) :
    Writes env db ((c.bind next) db).2 := by
  obtain heq | ⟨a, heq⟩ := Call.bind_db c next db
  · rw [heq]
    exact hc
  · rw [heq]
    exact hc.trans_plain (hnext a)

/-- Issuing a certificate of a stored key. -/
theorem issue_writes (env : Env) {key : SSHKey} (createdBy : Option UserId) {db : Db}
    (hkey : ∃ k ∈ db.sshKeys, k.id = key.id ∧ k.user = key.user) :
    Writes env db (issueCertificateForKey env key createdBy db).2 ∧
    ∀ cert db', issueCertificateForKey env key createdBy db = (.ok cert, db') →
      cert.key = key.id ∧ cert.user = key.user ∧ Fresh env.cfg env.caseTable db' cert ∧
        db'.users = db.users := by
  obtain ⟨t, ht, ⟨e, he⟩ | ⟨ca, user, cert, hca, huser, hsigned, he⟩⟩ :=
    issueCertificateForKey_signed env key createdBy db
  · rw [he]
    refine ⟨⟨rfl, .inr ⟨createdBy, by rw [ht]⟩, fun c hc => .inl hc, id⟩, fun cert db' h => ?_⟩
    cases h
  · have hlatest : latestCa { db with certificateAuthorities := t } = some ca :=
      latestCa_getActiveCa hca
    have hfresh : Fresh env.cfg env.caseTable { db with
        certificateAuthorities := t
        sshCertificates := db.sshCertificates.upsert (certificateRow env key
          (principalOf env.cfg env.caseTable user.username key.user) cert) }
        (certificateRow env key (principalOf env.cfg env.caseTable user.username key.user) cert) := by
      refine ⟨?_, ca, hlatest, ⟨hsigned.privateKey, hsigned.publicKey⟩, hsigned.hasPublicKey,
        hsigned.hasPrivateKey⟩
      have hname : usernameOf db key.user = user.username := by
        rw [usernameOf, huser]
        rfl
      exact hsigned.principals.trans (congrArg (principalOf _ _ · _) hname.symm)
    rw [he]
    refine ⟨⟨rfl, .inr ⟨createdBy, by rw [ht]⟩, fun c hc => ?_, fun howned c hc => ?_⟩, ?_⟩
    · obtain rfl | ⟨hc, _⟩ := (Table.mem_upsert _ _ _).mp hc
      · exact .inr (.inr hfresh)
      · exact .inl hc
    · obtain rfl | ⟨hc, _⟩ := (Table.mem_upsert _ _ _).mp hc
      · exact hkey
      · exact howned c hc
    · intro c db'' h
      cases h
      exact ⟨rfl, rfl, hfresh, rfl⟩

/-! ## The calls of the key API -/

/-- The key is one of the stored ones, up to the columns that are edited. -/
def Stored (key : SSHKey) (db : Db) : Prop := ∃ k ∈ db.sshKeys, k.id = key.id ∧ k.user = key.user

theorem saveKey_plain (env : Env) {key : SSHKey} {db : Db} (hkey : Stored key db) :
    Plain db (saveKey env key db).2 := by
  unfold saveKey
  split
  · refine ⟨rfl, rfl, fun c hc => .inl hc, fun howned c hc => ?_⟩
    obtain ⟨k, hk, hid, huser⟩ := howned c hc
    obtain ⟨q, hq, hqid, hquser⟩ := hkey
    by_cases h : k.id = key.id
    · obtain rfl : k = q := Table.eq_of_key _ hk hq (h.trans hqid.symm)
      exact ⟨key, (Table.mem_save _ _ _).mpr (.inl ⟨rfl, k, hk, hqid⟩), hqid.symm.trans hid,
        hquser.symm.trans huser⟩
    · exact ⟨k, (Table.mem_save _ _ _).mpr (.inr ⟨hk, h⟩), hid, huser⟩
  · exact Plain.refl db

theorem plain_revokeCertificates (db : Db) (p : SSHCertificate → Bool) (now : Instant) :
    Plain db { db with sshCertificates := db.sshCertificates.update p (revokedCertificate now) } := by
  refine ⟨rfl, rfl, fun c hc => ?_, fun howned c hc => ?_⟩
  · obtain ⟨o, ho, _, _, ⟨hin, _⟩ | ⟨rfl, _⟩⟩ := KeyRun.mem_revoked hc
    · exact .inr hin
    · exact .inl ho
  · obtain ⟨o, ho, hkey, huser, _⟩ := KeyRun.mem_revoked hc
    obtain ⟨k, hk, hkid, hku⟩ := howned o ho
    exact ⟨k, hk, hkid.trans hkey.symm, hku.trans huser.symm⟩

theorem plain_revokeKeys (db : Db) (p : SSHKey → Bool) (now : Instant) :
    Plain db { db with sshKeys := db.sshKeys.update p (revokedKey now) } := by
  refine ⟨rfl, rfl, fun c hc => .inl hc, fun howned c hc => ?_⟩
  obtain ⟨k, hk, hid, huser⟩ := howned c hc
  refine ⟨_, (Table.mem_update _ _ _ _).mpr ⟨k, hk, rfl⟩, ?_, ?_⟩
  · split
    · exact hid
    · exact hid
  · split
    · exact huser
    · exact huser

theorem revokeCertificateForKey_plain (env : Env) (key : SSHKey) (db : Db) :
    Plain db (revokeCertificateForKey env key db).2 := by
  unfold revokeCertificateForKey
  split
  · exact Plain.refl db
  · split
    · exact plain_revokeCertificates db _ env.now
    · exact Plain.refl db

theorem insertKey_plain (env : Env) (key : SSHKey) (db : Db) :
    Plain db (insertKey env key db).2 ∧
      ∀ k db', insertKey env key db = (.ok k, db') → Stored k db' := by
  unfold insertKey
  split
  · exact ⟨Plain.refl db, fun k db' h => by cases h⟩
  split
  · exact ⟨Plain.refl db, fun k db' h => by cases h⟩
  · have hmem := Table.mem_create db.sshKeys (fun id => { key with id := id }) fun _ => rfl
    refine ⟨⟨rfl, rfl, fun c hc => .inl hc, fun howned c hc => ?_⟩, fun k db' h => ?_⟩
    · obtain ⟨k, hk, hrow⟩ := howned c hc
      exact ⟨k, (hmem k).mpr (.inl hk), hrow⟩
    · cases h
      exact ⟨_, (hmem _).mpr (.inr rfl), rfl, rfl⟩

theorem createKey_writes (env : Env) (caller : Caller) (payload : KeyCreateIn) (db : Db) :
    Writes env db (createKey env caller payload db).2 := by
  have hissue : ∀ key, Writes env db (insertAndIssue env caller key db).2 := by
    intro key
    obtain ⟨hplain, hstored⟩ := insertKey_plain env key db
    unfold insertAndIssue Call.bind
    split
    · next heq =>
      rw [heq] at hplain
      exact hplain.writes env
    · next k db' heq =>
      rw [heq] at hplain
      exact hplain.trans_writes (issue_writes env (some caller.id) (hstored k db' heq)).1
  have hsame := (Plain.refl db).writes env
  unfold createKey
  split
  · exact hsame
  split
  · exact hsame
  split
  · exact hsame
  · simp only
    split
    · exact hsame
    split
    · exact hsame
    · next key _ =>
      have hkey := hissue key
      simp only [Call.mapError_db, Call.atomic]
      split
      · exact hsame
      · next heq =>
        rw [heq] at hkey
        exact hkey

theorem stored_findKey {caller : Caller} {perm : Perm} {keyId : Nat} {db : Db} {key : SSHKey}
    (h : findKey caller perm keyId db = .ok key) : Stored key db :=
  ⟨key, KeyRun.findKey_ok h, rfl, rfl⟩

theorem ensureCertificate_writes (env : Env) {key : SSHKey} (caller : Caller) {db : Db}
    (hkey : Stored key db) : Writes env db (ensureCertificate env key caller db).2 := by
  have hissue := (issue_writes env (some caller.id) hkey).1
  have hsame := (Plain.refl db).writes env
  unfold ensureCertificate
  split
  · exact hsame
  split
  · exact hissue
  · split
    · exact hissue
    · exact hsame

theorem downloaded_writes (env : Env) (caller : Caller) (keyId : Nat) (db : Db) :
    Writes env db (downloaded env caller keyId db).2 := by
  unfold downloaded
  split
  · exact (Plain.refl db).writes env
  · next key hf => exact ensureCertificate_writes env caller (stored_findKey hf)

theorem updateKey_writes (env : Env) (caller : Caller) (keyId : Nat) (payload : KeyUpdateIn)
    (db : Db) : Writes env db (updateKey env caller keyId payload db).2 := by
  obtain hsame | ⟨key, n, hf, -, hcase⟩ := KeyRun.updateKey_cases env caller keyId payload db
  · rw [hsame]
    exact (Plain.refl db).writes env
  · have hstored : ∀ key' : SSHKey, key'.id = key.id → key'.user = key.user → Stored key' db :=
      fun key' hid huser => ⟨key, KeyRun.findKey_ok hf, hid.symm, huser.symm⟩
    obtain heq | ⟨_, heq⟩ | heq := hcase
    · rw [heq]
      refine (saveKey_plain env ?_).writes env
      exact hstored _ rfl rfl
    · rw [heq]
      refine writes_bind ?_ fun _ => saveKey_plain env ?_
      · refine (issue_writes env (some caller.id) ?_).1
        exact hstored _ rfl rfl
      · rw [Stored, Call.mapError_db, issueCertificateForKey_sshKeys]
        exact hstored _ rfl rfl
    · rw [heq]
      refine writes_bind ((revokeCertificateForKey_plain env _ db).writes env) fun _ =>
        saveKey_plain env ?_
      rw [Stored, revokeCertificateForKey_sshKeys]
      exact hstored _ rfl rfl

theorem deleteKey_writes (env : Env) (caller : Caller) (keyId : Nat) (db : Db) :
    Writes env db (deleteKey env caller keyId db).2 := by
  obtain hsame | ⟨key, _, heq⟩ := KeyRun.deleteKey_cases env caller keyId db
  · rw [hsame]
    exact (Plain.refl db).writes env
  · rw [heq]
    exact (plain_revokeKeys db _ env.now).trans_writes
      ((revokeCertificateForKey_plain env _ _).writes env)

/-! ## The step -/

/-- What an event leaves of the authorities and the certificates. -/
structure Evolves (cfg : Settings) (T : CaseTable) (e : Event) (db db' : Db) : Prop where
  authorities : db'.certificateAuthorities = db.certificateAuthorities ∨
    (∃ env createdBy, e.env = some env ∧
      db'.certificateAuthorities = (getActiveCa env createdBy db).2.certificateAuthorities) ∨
    (∃ name isActive createdBy now, db'.certificateAuthorities =
      db.certificateAuthorities.create (addedCa name isActive createdBy now)) ∨
    ∃ id, db'.certificateAuthorities =
      db.certificateAuthorities.update (fun ca => ca.id = id) deactivated
  certificates : ∀ c ∈ db'.sshCertificates, c ∈ db.sshCertificates ∨ c.isActive = false ∨
    Fresh cfg T db' c
  owned : Owned db → Owned db'

variable {cfg : Settings} {T : CaseTable}

theorem Writes.evolves {env : Env} {db db' : Db} {e : Event} (he : e.env = some env)
    (h : Writes env db db') : Evolves env.cfg env.caseTable e db db' := by
  refine ⟨?_, h.certificates, h.owned⟩
  obtain h | ⟨createdBy, h⟩ := h.authorities
  · exact .inl h
  · exact .inr (.inl ⟨env, createdBy, he, h⟩)

/-- The certificates and the keys stay as they are. -/
theorem evolves_of_eq {e : Event} {db db' : Db}
    (ha : db'.certificateAuthorities = db.certificateAuthorities)
    (hc : db'.sshCertificates = db.sshCertificates) (hk : db'.sshKeys = db.sshKeys) :
    Evolves cfg T e db db' := by
  refine ⟨.inl ha, fun c h => .inl (hc ▸ h), fun howned c h => ?_⟩
  rw [hc] at h
  rw [hk]
  exact howned c h

/-- Erasing revokes in bulk. -/
theorem process_evolves (self : ErasureRequest) (adminUser : UserId) (reason token : List Char)
    (now : Instant) (e : Event) (db : Db) :
    Evolves cfg T e db (Erasure.process self adminUser reason token now db).2 := by
  unfold Erasure.process
  split
  · exact evolves_of_eq rfl rfl rfl
  · let pc : SSHCertificate → Bool := fun c => c.user = self.user && c.isActive
    let pk : SSHKey → Bool := fun k => k.user = self.user && k.isActive
    have hcerts := plain_revokeCertificates db pc now
    have hkeys := plain_revokeKeys
      { db with sshCertificates := db.sshCertificates.update pc (revokedCertificate now) } pk now
    refine ⟨.inl rfl, fun c hc => (hcerts.certificates c hc).imp_right .inl, ?_⟩
    exact hkeys.owned ∘ hcerts.owned

theorem keys_evolves (e : KeyApi.Event) (db : Db) :
    Evolves e.env.cfg e.env.caseTable (.keys e) db (KeyApi.step db e) := by
  obtain ⟨env, op⟩ := e
  cases op with
  | createKey caller payload => exact (createKey_writes env caller payload db).evolves rfl
  | issueCertificate caller keyId =>
    refine Writes.evolves rfl ?_
    simp only [KeyApi.step, issueCertificate]
    split
    · exact (Plain.refl db).writes env
    · next key hf => exact (issue_writes env (some caller.id) (stored_findKey hf)).1
  | downloadCertificate caller keyId => exact (downloaded_writes env caller keyId db).evolves rfl
  | downloadCertificateHash caller keyId => exact (downloaded_writes env caller keyId db).evolves rfl
  | updateKey caller keyId payload => exact (updateKey_writes env caller keyId payload db).evolves rfl
  | deleteKey caller keyId => exact (deleteKey_writes env caller keyId db).evolves rfl
  | process self adminUser reason token => exact process_evolves self adminUser reason token env.now _ db

/-- A sweep writes the requests and the permissions. -/
theorem expire_frame (now : Instant) (l : List AccessRequest) (db : Db) :
    ∃ t p, l.foldl (Access.expireOne now) db =
      { db with accessRequests := t, userObjectPermissions := p } := by
  induction l generalizing db with
  | nil => exact ⟨_, _, rfl⟩
  | cons r l ih =>
    obtain ⟨p, hp⟩ := Access.expireOne_frame now db r
    obtain ⟨t, q, hq⟩ := ih (Access.expireOne now db r)
    refine ⟨t, q, ?_⟩
    rw [List.foldl_cons, hq, hp]

theorem access_evolves (settings : Settings) (now : Instant) (op : AccessRun.Op) (e : Event) (db : Db) :
    Evolves cfg T e db (AccessRun.apply settings now db op) := by
  have hframe : ∀ {db' : Db}, (∃ t p, db' = { db with accessRequests := t, userObjectPermissions := p }) →
      Evolves cfg T e db db' := by
    rintro db' ⟨t, p, rfl⟩
    exact evolves_of_eq rfl rfl rfl
  cases op with
  | createRequest caller payload =>
    simp only [AccessRun.apply]
    split
    · next r db' h =>
      obtain ⟨-, rfl, rfl⟩ := Access.createRequest_ok h
      exact hframe ⟨_, Access.assignAccessRequestPerms_frame now _ true _⟩
    · exact hframe ⟨_, _, rfl⟩
  | updateRequest caller id payload =>
    simp only [AccessRun.apply]
    split
    · next r db' h =>
      obtain ⟨row, -, -, -, rfl⟩ := Access.updateRequest_ok h
      exact hframe ⟨_, Access.resynced_frame now r false _⟩
    · exact hframe ⟨_, _, rfl⟩
  | expireAccessRequests => exact hframe (expire_frame now (Access.expiring now db) db)
  | process self adminUser reason token => exact process_evolves self adminUser reason token now e db

theorem sshCa_evolves (env : Env) (serverId : Nat) (db : Db) :
    Evolves cfg T (.sshCa env serverId) db (sshCa env serverId db).2 := by
  have hgot : Evolves cfg T (.sshCa env serverId) db (getActiveCa env none db).2 := by
    obtain ⟨t, ht⟩ := getActiveCa_frame env none db
    refine ⟨.inr (.inl ⟨env, none, rfl, rfl⟩), fun c hc => .inl ?_, fun howned => ?_⟩
    · rw [ht] at hc
      exact hc
    · rw [ht]
      exact howned
  unfold sshCa
  split
  · exact evolves_of_eq rfl rfl rfl
  · split
    · next heq =>
      rw [heq] at hgot
      exact hgot
    · next heq =>
      rw [heq] at hgot
      split
      · exact hgot
      · exact hgot

theorem evolves_step (site : Site) {e : Event} (h : Deployed cfg T e) :
    Evolves cfg T e site.toDb (apply site e).toDb := by
  cases e with
  | keys e =>
    obtain ⟨hcfg, hT⟩ := h e.env rfl
    have hkeys := keys_evolves e site.toDb
    rw [hcfg, hT] at hkeys
    exact hkeys
  | updateUser env caller mayChange userId payload =>
    obtain ⟨t, ht⟩ := Users.updateUser_frame env caller mayChange userId payload site.toDb
    simp only [apply, over_toDb, ht]
    exact evolves_of_eq rfl rfl rfl
  | access settings now op => exact access_evolves settings now op _ site.toDb
  | objectPermissions users groups => exact evolves_of_eq rfl rfl rfl
  | sshCa env serverId => exact sshCa_evolves env serverId site.toDb
  | addCa name isActive createdBy now =>
    exact ⟨.inr (.inr (.inl ⟨name, isActive, createdBy, now, rfl⟩)), fun c hc => .inl hc, id⟩
  | deactivateCa id => exact ⟨.inr (.inr (.inr ⟨id, rfl⟩)), fun c hc => .inl hc, fun h => h⟩

/-- What has material keeps it. -/
theorem Evolves.material {e : Event} {db db' : Db} (h : Evolves cfg T e db db')
    {ca : SSHCertificateAuthority} (hca : ca ∈ db.certificateAuthorities) (hmat : HasMaterial ca) :
    ∃ ca' ∈ db'.certificateAuthorities, ca'.id = ca.id ∧
      ca'.privateKey = ca.privateKey ∧ ca'.publicKey = ca.publicKey := by
  obtain h | ⟨env, createdBy, _, h⟩ | ⟨name, isActive, createdBy, now, h⟩ | ⟨id, h⟩ := h.authorities
  · rw [h]
    exact ⟨ca, hca, rfl, rfl, rfl⟩
  · rw [h]
    exact getActiveCa_material env createdBy hca hmat
  · rw [h]
    exact ⟨ca, (Table.mem_create _ _ (fun _ => rfl) ca).mpr (.inl hca), rfl, rfl, rfl⟩
  · rw [h]
    refine ⟨_, (Table.mem_update _ _ _ _).mpr ⟨ca, hca, rfl⟩, ?_⟩
    split
    · exact ⟨rfl, rfl, rfl⟩
    · exact ⟨rfl, rfl, rfl⟩

/-! ## What the run remembers -/

/-- A certificate that was not in the table before has been written in the step. -/
theorem step_issues (w : World) (e : Event) {c : SSHCertificate}
    (hc : c ∈ (step w e).site.sshCertificates) :
    (c ∈ w.site.sshCertificates ∧ (step w e).issues c.key = w.issues c.key) ∨
      (c ∉ w.site.sshCertificates ∧ (step w e).issues c.key =
        ⟨usernameOf (step w e).site.toDb c.user,
          (latestCa (step w e).site.toDb).map SSHCertificateAuthority.id⟩) := by
  have hfind : (apply w.site e).sshCertificates.find c.key = some c :=
    (Table.find_eq_some _ _ _).mpr ⟨hc, rfl⟩
  by_cases hsame : (apply w.site e).sshCertificates.find c.key = w.site.sshCertificates.find c.key
  · left
    exact ⟨((Table.find_eq_some _ _ _).mp (hsame.symm.trans hfind)).1, if_pos hsame⟩
  · right
    refine ⟨fun hold => hsame ?_, ?_⟩
    · exact hfind.trans ((Table.find_eq_some _ _ _).mpr ⟨hold, rfl⟩).symm
    · refine (if_neg hsame).trans ?_
      rw [issueOf, hfind]
      rfl

/-- An active certificate is for the name its user had when it was written. -/
def Named (cfg : Settings) (T : CaseTable) (w : World) : Prop :=
  ∀ c ∈ w.site.sshCertificates, c.isActive = true →
    c.certificate.principals = principalOf cfg T (w.issues c.key).username c.user

/-- It is signed by the authority that was in use then. -/
def Signed (w : World) : Prop :=
  ∀ c ∈ w.site.sshCertificates, c.isActive = true →
    ∃ ca ∈ w.site.certificateAuthorities, (w.issues c.key).authority = some ca.id ∧
      SignedBy c.certificate ca ∧ HasMaterial ca

theorem owned_step (w : World) {e : Event} (he : Deployed cfg T e) (h : Owned w.site.toDb) :
    Owned (step w e).site.toDb :=
  (evolves_step w.site he).owned h

theorem named_step (w : World) {e : Event} (he : Deployed cfg T e) (h : Named cfg T w) :
    Named cfg T (step w e) := by
  intro c hc hactive
  obtain ⟨hold, hissue⟩ | ⟨hnew, hissue⟩ := step_issues w e hc
  · rw [hissue]
    exact h c hold hactive
  · rw [hissue]
    obtain hold | hin | hfresh := (evolves_step w.site he).certificates c hc
    · exact absurd hold hnew
    · rw [hin] at hactive
      cases hactive
    · exact hfresh.principal

theorem signed_step (w : World) {e : Event} (he : Deployed cfg T e) (h : Signed w) :
    Signed (step w e) := by
  have hevolves := evolves_step w.site he
  intro c hc hactive
  obtain ⟨hold, hissue⟩ | ⟨hnew, hissue⟩ := step_issues w e hc
  · obtain ⟨ca, hca, hauthority, hsigned, hmat⟩ := h c hold hactive
    obtain ⟨ca', hca', hid, hpriv, hpub⟩ := hevolves.material hca hmat
    refine ⟨ca', hca', by rw [hissue, hauthority, hid], ?_, ?_⟩
    · rw [SignedBy, hpriv, hpub]
      exact hsigned
    · rw [HasMaterial, hpriv, hpub]
      exact hmat
  · obtain hold | hin | hfresh := hevolves.certificates c hc
    · exact absurd hold hnew
    · rw [hin] at hactive
      cases hactive
    · obtain ⟨ca, hlatest, hsigned, hmat⟩ := hfresh.authority
      refine ⟨ca, (latestCa_some hlatest).1, ?_, hsigned, hmat⟩
      rw [hissue]
      exact congrArg (Option.map SSHCertificateAuthority.id) hlatest

/-! ## A download -/

/-- The certificate that a download hands out as it is. -/
def cached (env : Env) (key : Nat) (db : Db) : Option SSHCertificate :=
  (db.sshCertificates.find key).filter fun c => c.isActive && decide (env.now < c.validBefore)

theorem cached_some {env : Env} {key : Nat} {db : Db} {c : SSHCertificate}
    (h : cached env key db = some c) :
    c ∈ db.sshCertificates ∧ c.key = key ∧ c.isActive = true := by
  obtain ⟨hfind, hvalid⟩ := Option.filter_eq_some_iff.mp h
  obtain ⟨hc, hkey⟩ := (Table.find_eq_some _ _ _).mp hfind
  exact ⟨hc, hkey, (Bool.and_eq_true _ _ ▸ hvalid).1⟩

/-- The certificate of a download is the cached one or a new one. -/
theorem ensureCertificate_ok {env : Env} {key : SSHKey} {caller : Caller} {db db' : Db}
    {cert : SSHCertificate} (hkey : Stored key db)
    (h : ensureCertificate env key caller db = (.ok cert, db')) :
    key.isActive = true ∧ ((cached env key.id db = some cert ∧ db' = db) ∨
      (cached env key.id db = none ∧ cert.user = key.user ∧ Fresh env.cfg env.caseTable db' cert ∧
        db'.users = db.users)) := by
  have hissued : ∀ {db' : Db}, issueCertificateForKey env key (some caller.id) db = (.ok cert, db') →
      cert.user = key.user ∧ Fresh env.cfg env.caseTable db' cert ∧ db'.users = db.users :=
    fun hi => ((issue_writes env (some caller.id) hkey).2 cert _ hi).2
  unfold ensureCertificate at h
  split at h
  · cases h
  · next hactive =>
    refine ⟨by simpa using hactive, ?_⟩
    split at h
    · next hfind => exact .inr ⟨by rw [cached, hfind]; rfl, hissued h⟩
    · next c hfind =>
      rw [cached, hfind, Option.filter_some]
      split at h
      · next hguard =>
        rw [Bool.or_eq_true, Bool.not_eq_true', decide_eq_true_eq] at hguard
        have hexpired : (c.isActive && decide (env.now < c.validBefore)) = false := by
          rw [Bool.and_eq_false_iff, decide_eq_false_iff_not, Int.not_lt]
          exact hguard
        rw [hexpired]
        exact .inr ⟨rfl, hissued h⟩
      · next hguard =>
        cases h
        rw [Bool.or_eq_true, not_or, Bool.not_eq_true', Bool.not_eq_false, decide_eq_true_eq,
          Int.not_le] at hguard
        have hvalid : (cert.isActive && decide (env.now < cert.validBefore)) = true := by
          rw [Bool.and_eq_true, decide_eq_true_eq]
          exact hguard
        rw [hvalid]
        exact .inl ⟨rfl, rfl⟩

theorem downloadCertificate_ok {env : Env} {caller : Caller} {keyId : Nat} {db db' : Db}
    {body : SignedCertificate} {filename : List Char}
    (h : downloadCertificate env caller keyId db = (.ok (body, filename), db')) :
    ∃ key ∈ db.sshKeys, ∃ cert, key.id = keyId ∧ key.isActive = true ∧ body = cert.certificate ∧
      ((cached env keyId db = some cert ∧ db' = db) ∨
        (cached env keyId db = none ∧ cert.user = key.user ∧ Fresh env.cfg env.caseTable db' cert ∧
          db'.users = db.users)) := by
  unfold downloadCertificate downloaded Call.map at h
  simp only at h
  split at h
  · cases h
  · next key hf =>
    obtain rfl := KeyRun.findKey_id hf
    cases hensure : ensureCertificate env key caller db with
    | mk result dbOut =>
      rw [hensure] at h
      cases result with
      | error e => cases h
      | ok cert =>
        cases h
        obtain ⟨hactive, hcert⟩ := ensureCertificate_ok (stored_findKey hf) hensure
        exact ⟨key, KeyRun.findKey_ok hf, cert, rfl, hactive, rfl, hcert⟩

/-! ## A user with a key -/

def aliceSite : Site where
  users := KeyRun.oneUser.users
  servers := AccessRun.oneServer.servers
  userObjectPermissions := {⟨1, .viewServer, 1⟩}

def creating : Event := .keys ⟨workingEnv, KeyRun.createOp⟩

def aliceKey : SSHKey where
  id := 1
  user := 1
  name := "laptop".toList
  publicKey := "ssh-ed25519 AAAA".toList
  keyType := "ssh-ed25519".toList
  fingerprint := "SHA256:".toList ++ b64encode zerosDigest
  isActive := true
  createdAt := 1000
  revokedAt := none

def aliceCertificate : SignedCertificate where
  caPrivateKey := "private".toList
  caPublicKey := "ssh-ed25519 AAAA keywarden".toList
  publicKeyLine := "ssh-ed25519 AAAA keywarden-cert-1-laptop-1".toList
  identity := "keywarden-cert-1-laptop-1".toList
  principals := "alice_1".toList
  validity := "+30d".toList
  serial := 42

def filename : List Char := "keywarden-1-1-cert.pub".toList

def created : World := run step (start aliceSite) [creating]

def download (w : World) : Except Raised (SignedCertificate × List Char) × Db :=
  downloadCertificate workingEnv KeyRun.keyOwnerCaller aliceKey.id w.site.toDb

end Keywarden.CertificateRun
