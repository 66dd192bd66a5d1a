import Keywarden.KeyApi

/-!
# Certificates of revoked keys

No key that is inactive or revoked has an active certificate, in every state of a
run in which signing and the database work, exactly when no certificate is issued
on request for an inactive key.
-/
namespace Keywarden.KeyRun

open Rows Text Transitions Keys Erasure KeyApi

/-- What links the two rows, and a key to its user, whatever happens. -/
structure Linked (db : Db) : Prop where
  active_iff : ∀ k ∈ db.sshKeys, k.isActive = true ↔ k.revokedAt = none
  owner : ∀ k ∈ db.sshKeys, (db.users.find k.user).isSome = true
  certificate_user : ∀ c ∈ db.sshCertificates, ∀ k ∈ db.sshKeys, c.key = k.id → c.user = k.user

/-- A key that is inactive or revoked has no active certificate. -/
def Quiet (db : Db) : Prop :=
  ∀ k ∈ db.sshKeys, (k.isActive = false ∨ k.revokedAt ≠ none) →
    ∀ c ∈ db.sshCertificates, c.key = k.id → c.isActive = false

theorem Linked.revoked_iff {db : Db} (h : Linked db) {k : SSHKey} (hk : k ∈ db.sshKeys) :
    (k.isActive = false ∨ k.revokedAt ≠ none) ↔ k.isActive = false := by
  rw [← Bool.not_eq_true, ne_eq, ← h.active_iff k hk, or_self]

/-- Only three tables matter. -/
theorem Linked.of_eq {db db' : Db} (h : Linked db) (hu : db'.users = db.users)
    (hk : db'.sshKeys = db.sshKeys) (hc : db'.sshCertificates = db.sshCertificates) :
    Linked db' := by
  refine ⟨?_, ?_, ?_⟩
  · rw [hk]; exact h.active_iff
  · rw [hk, hu]; exact h.owner
  · rw [hk, hc]; exact h.certificate_user

theorem Quiet.of_eq {db db' : Db} (h : Quiet db) (hk : db'.sshKeys = db.sshKeys)
    (hc : db'.sshCertificates = db.sshCertificates) : Quiet db' := by
  unfold Quiet
  rw [hk, hc]
  exact h

/-! ## What the writes do -/

/-- A certificate put in place for a key. -/
theorem linked_upsert {db : Db} {k : SSHKey} {cert : SSHCertificate} (h : Linked db)
    (hk : k ∈ db.sshKeys) (hkey : cert.key = k.id) (huser : cert.user = k.user) :
    Linked { db with sshCertificates := db.sshCertificates.upsert cert } := by
  refine ⟨h.active_iff, h.owner, ?_⟩
  intro c hc q hq hcq
  obtain rfl | ⟨hc, _⟩ := (Table.mem_upsert _ _ _).mp hc
  · rw [huser, Table.eq_of_key _ hq hk (hcq.symm.trans hkey)]
  · exact h.certificate_user c hc q hq hcq

/-- It may be active if and only if the key is. -/
theorem quiet_upsert_iff {db : Db} {k : SSHKey} {cert : SSHCertificate} (h : Linked db)
    (hq : Quiet db) (hk : k ∈ db.sshKeys) (hkey : cert.key = k.id) (hact : cert.isActive = true) :
    Quiet { db with sshCertificates := db.sshCertificates.upsert cert } ↔ k.isActive = true := by
  constructor
  · intro h'
    by_contra hk'
    have hin := h' k hk (.inl (Bool.not_eq_true _ ▸ hk')) cert
      ((Table.mem_upsert _ _ _).mpr (.inl rfl)) hkey
    rw [hact] at hin
    exact absurd hin (by decide)
  · intro hka q hqm hrev c hc hcq
    obtain rfl | ⟨hc, _⟩ := (Table.mem_upsert _ _ _).mp hc
    · have hqk : q = k := Table.eq_of_key _ hqm hk (hcq.symm.trans hkey)
      rw [h.revoked_iff hqm, hqk, hka] at hrev
      exact absurd hrev (by decide)
    · exact hq q hqm hrev c hc hcq

/-- A key row written back with the same user and flags that agree. -/
theorem linked_save {db : Db} {k k' : SSHKey} (h : Linked db) (hk : k ∈ db.sshKeys)
    (hid : k'.id = k.id) (huser : k'.user = k.user) (hact : k'.isActive = true ↔ k'.revokedAt = none) :
    Linked { db with sshKeys := db.sshKeys.save k' } := by
  have hmem : ∀ q ∈ db.sshKeys.save k', q = k' ∨ q ∈ db.sshKeys := by
    intro q hq
    obtain ⟨hq, _⟩ | ⟨hq, _⟩ := (Table.mem_save _ _ _).mp hq
    · exact .inl hq
    · exact .inr hq
  refine ⟨?_, ?_, ?_⟩
  · intro q hq
    obtain rfl | hq := hmem q hq
    · exact hact
    · exact h.active_iff q hq
  · intro q hq
    obtain rfl | hq := hmem q hq
    · rw [huser]; exact h.owner k hk
    · exact h.owner q hq
  · intro c hc q hq hcq
    obtain rfl | hq := hmem q hq
    · rw [huser]; exact h.certificate_user c hc k hk (hcq.trans hid)
    · exact h.certificate_user c hc q hq hcq

theorem quiet_save {db : Db} {k' : SSHKey} (hq : Quiet db)
    (hcert : (k'.isActive = false ∨ k'.revokedAt ≠ none) →
      ∀ c ∈ db.sshCertificates, c.key = k'.id → c.isActive = false) :
    Quiet { db with sshKeys := db.sshKeys.save k' } := by
  intro q hqm
  obtain ⟨rfl, _⟩ | ⟨hqm, _⟩ := (Table.mem_save _ _ _).mp hqm
  · exact hcert
  · exact hq q hqm

/-- Certificates revoked in bulk. -/
theorem mem_revoked {now : Instant} {p : SSHCertificate → Bool} {t : Table SSHCertificate}
    {c : SSHCertificate} (hc : c ∈ t.update p (revokedCertificate now)) :
    ∃ o ∈ t, c.key = o.key ∧ c.user = o.user ∧
      ((c.isActive = false ∧ p o = true) ∨ (c = o ∧ p o = false)) := by
  obtain ⟨o, ho, rfl⟩ := (Table.mem_update _ _ _ _).mp hc
  refine ⟨o, ho, ?_⟩
  cases hp : p o with
  | true => exact ⟨rfl, rfl, .inl ⟨rfl, rfl⟩⟩
  | false => exact ⟨rfl, rfl, .inr ⟨rfl, rfl⟩⟩

theorem linked_revokeCertificates {db : Db} (h : Linked db) (p : SSHCertificate → Bool)
    (now : Instant) :
    Linked { db with sshCertificates := db.sshCertificates.update p (revokedCertificate now) } := by
  refine ⟨h.active_iff, h.owner, ?_⟩
  intro c hc q hq hcq
  obtain ⟨o, ho, hkey, huser, _⟩ := mem_revoked hc
  rw [huser]
  exact h.certificate_user o ho q hq (hkey.symm.trans hcq)

theorem quiet_revokeCertificates {db : Db} (hq : Quiet db) (p : SSHCertificate → Bool)
    (now : Instant) :
    Quiet { db with sshCertificates := db.sshCertificates.update p (revokedCertificate now) } := by
  intro k hk hrev c hc hck
  obtain ⟨o, ho, hkey, _, ⟨hin, _⟩ | ⟨rfl, _⟩⟩ := mem_revoked hc
  · exact hin
  · exact hq k hk hrev c ho hck

/-- Keys revoked in bulk. -/
theorem mem_revokedKey {now : Instant} {p : SSHKey → Bool} {t : Table SSHKey} {k : SSHKey}
    (hk : k ∈ t.update p (revokedKey now)) :
    ∃ o ∈ t, k.id = o.id ∧ k.user = o.user ∧
      ((k.isActive = false ∧ k.revokedAt = some now ∧ p o = true) ∨ (k = o ∧ p o = false)) := by
  obtain ⟨o, ho, rfl⟩ := (Table.mem_update _ _ _ _).mp hk
  refine ⟨o, ho, ?_⟩
  cases hp : p o with
  | true => exact ⟨rfl, rfl, .inl ⟨rfl, rfl, rfl⟩⟩
  | false => exact ⟨rfl, rfl, .inr ⟨rfl, rfl⟩⟩

theorem linked_revokeKeys {db : Db} (h : Linked db) (p : SSHKey → Bool) (now : Instant) :
    Linked { db with sshKeys := db.sshKeys.update p (revokedKey now) } := by
  refine ⟨?_, ?_, ?_⟩
  · intro k hk
    obtain ⟨o, ho, _, _, ⟨h₁, h₂, _⟩ | ⟨rfl, _⟩⟩ := mem_revokedKey hk
    · simp [h₁, h₂]
    · exact h.active_iff k ho
  · intro k hk
    obtain ⟨o, ho, _, huser, _⟩ := mem_revokedKey hk
    rw [huser]
    exact h.owner o ho
  · intro c hc k hk hck
    obtain ⟨o, ho, hid, huser, _⟩ := mem_revokedKey hk
    rw [huser]
    exact h.certificate_user c hc o ho (hck.trans hid)

theorem quiet_revokeKeys {db : Db} (hq : Quiet db) (p : SSHKey → Bool) (now : Instant)
    (hcert : ∀ k ∈ db.sshKeys, p k = true → ∀ c ∈ db.sshCertificates, c.key = k.id →
      c.isActive = false) :
    Quiet { db with sshKeys := db.sshKeys.update p (revokedKey now) } := by
  intro k hk hrev c hc hck
  obtain ⟨o, ho, hid, _, ⟨_, _, hp⟩ | ⟨rfl, _⟩⟩ := mem_revokedKey hk
  · exact hcert o ho hp c hc (hck.trans hid)
  · exact hq k ho hrev c hc hck

/-- A new active key with its certificate. -/
theorem linked_create {db : Db} {k : SSHKey} {cert : SSHCertificate} (h : Linked db)
    (hact : k.isActive = true) (hrev : k.revokedAt = none)
    (howner : (db.users.find k.user).isSome = true) (hkey : cert.key = db.sshKeys.fresh)
    (huser : cert.user = k.user) :
    Linked { db with
      sshKeys := db.sshKeys.create fun id => { k with id := id }
      sshCertificates := db.sshCertificates.upsert cert } := by
  have hmem : ∀ q, q ∈ db.sshKeys.create (fun id => { k with id := id }) ↔
      q ∈ db.sshKeys ∨ q = { k with id := db.sshKeys.fresh } :=
    fun q => Table.mem_create _ _ (fun _ => rfl) q
  refine ⟨?_, ?_, ?_⟩
  · intro q hq
    obtain hq | rfl := (hmem q).mp hq
    · exact h.active_iff q hq
    · simp [hact, hrev]
  · intro q hq
    obtain hq | rfl := (hmem q).mp hq
    · exact h.owner q hq
    · exact howner
  · intro c hc q hq hcq
    obtain hold | rfl := (hmem q).mp hq
    · have hlt : q.id < db.sshKeys.fresh := Table.key_lt_fresh _ hold
      obtain rfl | ⟨hc, _⟩ := (Table.mem_upsert _ _ _).mp hc
      · omega
      · exact h.certificate_user c hc q hold hcq
    · obtain rfl | ⟨_, hne⟩ := (Table.mem_upsert _ _ _).mp hc
      · exact huser
      · exact absurd (hcq.trans hkey.symm) hne

theorem quiet_create {db : Db} {k : SSHKey} {cert : SSHCertificate} (hq : Quiet db)
    (hact : k.isActive = true) (hrev : k.revokedAt = none) (hkey : cert.key = db.sshKeys.fresh) :
    Quiet { db with
      sshKeys := db.sshKeys.create fun id => { k with id := id }
      sshCertificates := db.sshCertificates.upsert cert } := by
  intro q hqm hr c hc hcq
  obtain hold | rfl := (Table.mem_create _ _ (fun _ => rfl) q).mp hqm
  · have hlt : q.id < db.sshKeys.fresh := Table.key_lt_fresh _ hold
    obtain rfl | ⟨hc, _⟩ := (Table.mem_upsert _ _ _).mp hc
    · omega
    · exact hq q hold hr c hc hcq
  · obtain hr | hr := hr
    · rw [hact] at hr
      exact absurd hr (by decide)
    · exact absurd hrev hr

/-! ## What the handlers do -/

theorem find_of_findKey {caller : Caller} {perm : Perm} {keyId : Nat} {db : Db} {key : SSHKey}
    (h : findKey caller perm keyId db = .ok key) : db.sshKeys.find keyId = some key := by
  unfold findKey at h
  split at h
  · cases h
  split at h
  · cases h
  · next k hk =>
    split at h
    · cases h
      exact hk
    · cases h

theorem findKey_ok {caller : Caller} {perm : Perm} {keyId : Nat} {db : Db} {key : SSHKey}
    (h : findKey caller perm keyId db = .ok key) : key ∈ db.sshKeys :=
  ((Table.find_eq_some _ _ _).mp (find_of_findKey h)).1

theorem findKey_id {caller : Caller} {perm : Perm} {keyId : Nat} {db : Db} {key : SSHKey}
    (h : findKey caller perm keyId db = .ok key) : key.id = keyId :=
  ((Table.find_eq_some _ _ _).mp (find_of_findKey h)).2

theorem renamed_ok {name : Option (List Char)} {key key' : SSHKey}
    (h : renamed name key = .ok key') : ∃ n, key' = { key with name := n } := by
  unfold renamed at h
  split at h
  · cases h
    exact ⟨key.name, rfl⟩
  · split at h
    · cases h
    · cases h
      exact ⟨_, rfl⟩

theorem setPublicKey_ok {sha256 : List Nat → List Nat} {publicKey : List Char} {key key' : SSHKey}
    (h : setPublicKey sha256 publicKey key = .ok key') :
    key'.user = key.user ∧ key'.isActive = key.isActive ∧ key'.revokedAt = key.revokedAt := by
  unfold setPublicKey at h
  split at h
  · cases h
  · cases h
    exact ⟨rfl, rfl, rfl⟩

/-- A key is created with its certificate or not at all. -/
theorem createKey_cases (env : Env) (caller : Caller) (payload : KeyCreateIn) (db : Db) :
    (createKey env caller payload db).2 = db ∨
    ∃ (k : SSHKey) (cert : SSHCertificate), caller.isAuthenticated = true ∧
      keyOwner caller payload.userId db = .ok k.user ∧ k.isActive = true ∧ k.revokedAt = none ∧
      (db.users.find k.user).isSome = true ∧ cert.key = db.sshKeys.fresh ∧ cert.user = k.user ∧
      (createKey env caller payload db).2.users = db.users ∧
      (createKey env caller payload db).2.accessRequests = db.accessRequests ∧
      (createKey env caller payload db).2.sshKeys =
        db.sshKeys.create (fun id => { k with id := id }) ∧
      (createKey env caller payload db).2.sshCertificates = db.sshCertificates.upsert cert := by
  unfold createKey
  split
  · exact .inl rfl
  · next hauth =>
    split
    · exact .inl rfl
    split
    · exact .inl rfl
    · next owner howner =>
      simp only
      split
      · exact .inl rfl
      split
      · exact .inl rfl
      · next k hset =>
        obtain ⟨rfl, hact, hrev⟩ := setPublicKey_ok hset
        simp only [Call.mapError_db, Call.atomic, insertAndIssue, Call.bind, insertKey]
        by_cases hfit : (env.writes .key && keyFits k) = true
        · by_cases hdup : (db.sshKeys.any fun o => o.user = k.user && o.fingerprint = k.fingerprint) = true
          · simp [hfit, hdup]
          · simp only [hfit, hdup, Bool.not_true, Bool.false_eq_true, if_false, Call.map]
            obtain ⟨t, ⟨e, he⟩ | ⟨cert, hkey, huser, _, hfound, he⟩⟩ := issueCertificateForKey_cases env
              { k with id := db.sshKeys.fresh } (some caller.id)
              (assignSshKeyPerms { k with id := db.sshKeys.fresh }
                { db with sshKeys := db.sshKeys.create fun id => { k with id := id } })
            · rw [he]
              exact .inl rfl
            · rw [he]
              exact .inr ⟨k, cert, by simpa using hauth, howner, hact, hrev, hfound, hkey, huser, rfl,
                rfl, rfl, rfl⟩
        · simp [hfit]

/-- An update is refused, or it comes down to one of three ways to save the key. -/
theorem updateKey_cases (env : Env) (caller : Caller) (keyId : Nat) (payload : KeyUpdateIn) (db : Db) :
    (updateKey env caller keyId payload db).2 = db ∨
    ∃ (key : SSHKey) (name : List Char), findKey caller .changeSshkey keyId db = .ok key ∧
      renamed payload.name key = .ok { key with name := name } ∧
      ((updateKey env caller keyId payload db = saveKey env { key with name := name } db) ∨
        (payload.isActive = some true ∧ updateKey env caller keyId payload db =
          (((issueCertificateForKey env { key with name := name, isActive := true, revokedAt := none }
            (some caller.id)).mapError fun e => .http (issuanceFailed e)).bind fun _ =>
              saveKey env { key with name := name, isActive := true, revokedAt := none }) db) ∨
        updateKey env caller keyId payload db =
          ((revokeCertificateForKey env
            { key with name := name, isActive := false, revokedAt := some env.now }).bind fun _ =>
              saveKey env { key with name := name, isActive := false, revokedAt := some env.now })
                db) := by
  unfold updateKey
  split
  · exact .inl rfl
  · next key hf =>
    split
    · exact .inl rfl
    split
    · exact .inl rfl
    · next key' hr =>
      obtain ⟨n, rfl⟩ := renamed_ok hr
      refine .inr ⟨key, n, hf, hr, ?_⟩
      split
      · exact .inl rfl
      · next hactive => exact .inr (.inl ⟨hactive, rfl⟩)
      · exact .inr (.inr rfl)

/-- A deletion changes nothing, or it revokes the key and then its certificate. -/
theorem deleteKey_cases (env : Env) (caller : Caller) (keyId : Nat) (db : Db) :
    (deleteKey env caller keyId db).2 = db ∨
    ∃ key, findKey caller .deleteSshkey keyId db = .ok key ∧
      deleteKey env caller keyId db = revokeCertificateForKey env key { db with
        sshKeys := db.sshKeys.update (fun k => k.id = key.id) (revokedKey env.now) } := by
  unfold deleteKey
  split
  · exact .inl rfl
  · next key hf =>
    split
    · split
      · exact .inr ⟨key, hf, rfl⟩
      · exact .inl rfl
    · exact .inl rfl

/-- A download changes no key, and issues only for an active one. -/
theorem downloaded_cases (env : Env) (caller : Caller) (keyId : Nat) (db : Db) :
    ∃ t, (downloaded env caller keyId db).2 = { db with certificateAuthorities := t } ∨
      ∃ k ∈ db.sshKeys, ∃ cert : SSHCertificate, k.isActive = true ∧ cert.key = k.id ∧
        cert.user = k.user ∧ cert.isActive = true ∧
        (downloaded env caller keyId db).2 = { db with
          certificateAuthorities := t
          sshCertificates := db.sshCertificates.upsert cert } := by
  have hissue : ∀ key : SSHKey, key ∈ db.sshKeys → key.isActive = true →
      ∃ t, (issueCertificateForKey env key (some caller.id) db).2 =
          { db with certificateAuthorities := t } ∨
        ∃ k ∈ db.sshKeys, ∃ cert : SSHCertificate, k.isActive = true ∧ cert.key = k.id ∧
          cert.user = k.user ∧ cert.isActive = true ∧
          (issueCertificateForKey env key (some caller.id) db).2 = { db with
            certificateAuthorities := t
            sshCertificates := db.sshCertificates.upsert cert } := by
    intro key hk hka
    obtain ⟨t, ⟨e, he⟩ | ⟨cert, hkey, huser, hact, _, he⟩⟩ :=
      issueCertificateForKey_cases env key (some caller.id) db
    · exact ⟨t, .inl (by rw [he])⟩
    · exact ⟨t, .inr ⟨key, hk, cert, hka, hkey, huser, hact, by rw [he]⟩⟩
  unfold downloaded
  split
  · exact ⟨_, .inl rfl⟩
  · next key hf =>
    simp only [Call.map_db, ensureCertificate]
    cases hka : key.isActive with
    | false => exact ⟨_, .inl rfl⟩
    | true =>
      simp only [Bool.not_true, Bool.false_eq_true, if_false]
      split
      · exact hissue key (findKey_ok hf) hka
      · split
        · exact hissue key (findKey_ok hf) hka
        · exact ⟨_, .inl rfl⟩

/-! ## One step -/

/-- Signing and the database writes of the call succeed; a row that does not fit its
columns is a write that fails. -/
structure Works (db : Db) (e : Event) : Prop where
  signing : SigningWorks e.env db
  write : e.env.writes .key = true
  fits : ∀ caller keyId payload k k', e.op = .updateKey caller keyId payload →
    findKey caller .changeSshkey keyId db = .ok k → renamed payload.name k = .ok k' →
    keyFits k' = true

/-- No certificate is issued on request for an inactive key. -/
def IssuesForActive (db : Db) (e : Event) : Prop :=
  match e.op with
  | .issueCertificate caller keyId =>
    ∀ key, findKey caller .viewSshkey keyId db = .ok key → key.isActive = true
  | _ => True

/-- What a handler that minds the key row leaves behind. -/
def Keeps (db db' : Db) : Prop := Linked db' ∧ (Quiet db → Quiet db')

theorem Keeps.refl {db : Db} (h : Linked db) : Keeps db db := ⟨h, id⟩

theorem createKey_keeps (env : Env) (caller : Caller) (payload : KeyCreateIn) {db : Db}
    (h : Linked db) : Keeps db (createKey env caller payload db).2 := by
  obtain he | ⟨k, cert, _, _, hact, hrev, howner, hkey, huser, hu, _, hk, hc⟩ :=
    createKey_cases env caller payload db
  · rw [he]
    exact Keeps.refl h
  · exact ⟨(linked_create h hact hrev howner hkey huser).of_eq hu hk hc,
      fun hq => (quiet_create hq hact hrev hkey).of_eq hk hc⟩

theorem downloaded_keeps (env : Env) (caller : Caller) (keyId : Nat) {db : Db} (h : Linked db) :
    Keeps db (downloaded env caller keyId db).2 := by
  obtain ⟨t, he | ⟨k, hk, cert, hka, hkey, huser, hact, he⟩⟩ := downloaded_cases env caller keyId db
  · rw [he]
    exact ⟨h.of_eq rfl rfl rfl, fun hq => hq.of_eq rfl rfl⟩
  · rw [he]
    exact ⟨(linked_upsert h hk hkey huser).of_eq rfl rfl rfl,
      fun hq => ((quiet_upsert_iff h hq hk hkey hact).mpr hka).of_eq rfl rfl⟩

theorem issueCertificate_keeps_iff {env : Env} {db : Db} (hw : SigningWorks env db)
    (caller : Caller) (keyId : Nat) (h : Linked db) :
    Linked (issueCertificate env caller keyId db).2 ∧ (Quiet db →
      (Quiet (issueCertificate env caller keyId db).2 ↔
        ∀ key, findKey caller .viewSshkey keyId db = .ok key → key.isActive = true)) := by
  unfold issueCertificate
  split
  · next e he =>
    exact ⟨h, fun hq => ⟨fun _ key hk => absurd hk (by simp [he]), fun _ => hq⟩⟩
  · next key hf =>
    have hk := findKey_ok hf
    obtain ⟨t, ⟨e, he⟩ | ⟨cert, hkey, huser, hact, _, he⟩⟩ :=
      issueCertificateForKey_cases env key (some caller.id) db
    · obtain ⟨cert, db', hok⟩ := issueCertificateForKey_ok hw (h.owner key hk) (some caller.id)
      rw [hok] at he
      cases he
    · rw [he]
      refine ⟨(linked_upsert h hk hkey huser).of_eq rfl rfl rfl, fun hq => ?_⟩
      have hiff := quiet_upsert_iff h hq hk hkey hact
      constructor
      · intro h' key' hf'
        rw [hf] at hf'
        cases hf'
        exact hiff.mp (h'.of_eq rfl rfl)
      · intro hall
        exact (hiff.mpr (hall key hf)).of_eq rfl rfl

theorem saveKey_eq {env : Env} {key : SSHKey} (hw : env.writes .key = true)
    (hfit : keyFits key = true) (db : Db) :
    saveKey env key db = (.ok key, { db with sshKeys := db.sshKeys.save key }) := by
  rw [saveKey, hw, hfit]
  rfl

/-- `is_active` set: the certificate is issued, then the key is saved active. -/
theorem activate_keeps {env : Env} {db : Db} {key k' : SSHKey} (hw : env.writes .key = true)
    (hfit : keyFits k' = true) (h : Linked db) (hk : key ∈ db.sshKeys) (hid : k'.id = key.id)
    (huser : k'.user = key.user) (hact : k'.isActive = true) (hrev : k'.revokedAt = none)
    (createdBy : Option UserId) (f : Raised → Raised) :
    Keeps db ((((issueCertificateForKey env k' createdBy).mapError f).bind fun _ =>
      saveKey env k') db).2 := by
  simp only [Call.bind, Call.mapError]
  obtain ⟨t, ⟨e, he⟩ | ⟨cert, hkey, hcu, hca, _, he⟩⟩ :=
    issueCertificateForKey_cases env k' createdBy db
  · rw [he]
    exact ⟨h.of_eq rfl rfl rfl, fun hq => hq.of_eq rfl rfl⟩
  · rw [he]
    simp only [Except.mapError, saveKey_eq hw hfit]
    have hl := linked_save h hk hid huser (by simp [hact, hrev])
    have hk' : k' ∈ db.sshKeys.save k' :=
      (Table.mem_save _ _ _).mpr (.inl ⟨rfl, key, hk, hid.symm⟩)
    refine ⟨(linked_upsert hl hk' hkey hcu).of_eq rfl rfl rfl, fun hq => ?_⟩
    have hq' : Quiet { db with sshKeys := db.sshKeys.save k' } :=
      quiet_save hq (by simp [hact, hrev])
    exact ((quiet_upsert_iff hl hq' hk' hkey hca).mpr hact).of_eq rfl rfl

/-- `is_active` cleared: the certificate is revoked, then the key is saved inactive. -/
theorem deactivate_keeps {env : Env} {db : Db} {key k' : SSHKey} (hw : env.writes .key = true)
    (hwc : env.writes .certificate = true) (hfit : keyFits k' = true) (h : Linked db)
    (hk : key ∈ db.sshKeys) (hid : k'.id = key.id) (huser : k'.user = key.user)
    (hact : k'.isActive = true ↔ k'.revokedAt = none) :
    Keeps db (((revokeCertificateForKey env k').bind fun _ => saveKey env k') db).2 := by
  simp only [Call.bind, revokeCertificateForKey_cases _ _ _ hwc, saveKey_eq hw hfit]
  have hl := linked_revokeCertificates h (fun c => c.key = k'.id) env.now
  refine ⟨linked_save hl hk hid huser hact, fun hq => ?_⟩
  refine quiet_save (quiet_revokeCertificates hq _ _) fun _ c hc hck => ?_
  obtain ⟨o, _, hkey, _, ⟨hin, _⟩ | ⟨_, hp⟩⟩ := mem_revoked hc
  · exact hin
  · rw [decide_eq_false_iff_not] at hp
    exact absurd (hkey.symm.trans hck) hp

theorem updateKey_keeps {db : Db} {env : Env} {caller : Caller} {keyId : Nat} {payload : KeyUpdateIn}
    (hw : Works db ⟨env, .updateKey caller keyId payload⟩) (h : Linked db) :
    Keeps db (updateKey env caller keyId payload db).2 := by
  have hwrite : env.writes .key = true := hw.write
  obtain hsame | ⟨key, n, hf, hr, hcase⟩ := updateKey_cases env caller keyId payload db
  · rw [hsame]
    exact Keeps.refl h
  · have hk := findKey_ok hf
    have hfit := hw.fits caller keyId payload key _ rfl hf hr
    obtain heq | ⟨_, heq⟩ | heq := hcase
    · rw [heq, saveKey_eq hwrite hfit]
      refine ⟨linked_save h hk rfl rfl (h.active_iff key hk), fun hq => ?_⟩
      exact quiet_save hq (hq key hk)
    · rw [heq]
      have hfit' : keyFits { key with name := n, isActive := true, revokedAt := none } = true := hfit
      exact activate_keeps hwrite hfit' h hk rfl rfl rfl rfl _ _
    · rw [heq]
      have hfit' : keyFits { key with
        name := n, isActive := false, revokedAt := some env.now } = true := hfit
      exact deactivate_keeps hwrite hw.signing.write hfit' h hk rfl rfl (by simp)

theorem deleteKey_keeps {env : Env} (caller : Caller) (keyId : Nat) {db : Db}
    (hw : env.writes .certificate = true) (h : Linked db) :
    Keeps db (deleteKey env caller keyId db).2 := by
  obtain hsame | ⟨key, _, heq⟩ := deleteKey_cases env caller keyId db
  · rw [hsame]
    exact Keeps.refl h
  · rw [heq, revokeCertificateForKey_cases _ _ _ hw]
    have hl := linked_revokeCertificates h (fun c => c.key = key.id) env.now
    refine ⟨linked_revokeKeys hl (fun k => k.id = key.id) env.now, fun hq => ?_⟩
    refine quiet_revokeKeys (quiet_revokeCertificates hq _ _) _ _ ?_
    intro k _ hp c hc hck
    obtain ⟨o, _, hkey, _, ⟨hin, _⟩ | ⟨_, hp'⟩⟩ := mem_revoked hc
    · exact hin
    · rw [decide_eq_false_iff_not] at hp'
      rw [decide_eq_true_eq] at hp
      exact absurd (hkey.symm.trans (hck.trans hp)) hp'

/-- Erasing a user revokes the keys and the certificates of the user. -/
theorem process_keeps (self : ErasureRequest) (adminUser : UserId) (reason token : List Char)
    (now : Instant) {db : Db} (h : Linked db) :
    Keeps db (process self adminUser reason token now db).2 := by
  unfold process
  split
  · exact Keeps.refl h
  · let pc : SSHCertificate → Bool := fun c => c.user = self.user && c.isActive
    let pk : SSHKey → Bool := fun k => k.user = self.user && k.isActive
    have hlc := linked_revokeCertificates h pc now
    have hlk := linked_revokeKeys hlc pk now
    constructor
    · refine ⟨hlk.active_iff, ?_, hlk.certificate_user⟩
      intro k hk
      have ho := hlk.owner k hk
      rwa [← Table.isSome_find_update _ (fun u => u.id = self.user) (anonymous token)] at ho
    · intro hq
      refine (quiet_revokeKeys (quiet_revokeCertificates hq pc now) pk now ?_).of_eq rfl rfl
      intro k hk hp c hc hck
      obtain ⟨o, ho, hkey, huser, ⟨hin, _⟩ | ⟨rfl, hp'⟩⟩ := mem_revoked hc
      · exact hin
      · have hcu := h.certificate_user c ho k hk hck
        simp only [pk, Bool.and_eq_true, decide_eq_true_eq] at hp
        simpa [pc, hcu, hp.1] using hp'

theorem linked_step {db : Db} {e : Event} (hw : Works db e) (h : Linked db) :
    Linked (step db e) ∧ (Quiet db → (Quiet (step db e) ↔ IssuesForActive db e)) := by
  have hkeeps : ∀ {db' : Db}, Keeps db db' → Linked db' ∧ (Quiet db → (Quiet db' ↔ True)) :=
    fun hk => ⟨hk.1, fun hq => iff_true_intro (hk.2 hq)⟩
  obtain ⟨env, op⟩ := e
  cases op with
  | createKey caller payload => exact hkeeps (createKey_keeps env caller payload h)
  | issueCertificate caller keyId => exact issueCertificate_keeps_iff hw.signing caller keyId h
  | downloadCertificate caller keyId => exact hkeeps (downloaded_keeps env caller keyId h)
  | downloadCertificateHash caller keyId => exact hkeeps (downloaded_keeps env caller keyId h)
  | updateKey caller keyId payload => exact hkeeps (updateKey_keeps hw h)
  | deleteKey caller keyId => exact hkeeps (deleteKey_keeps caller keyId hw.signing.write h)
  | process self adminUser reason token =>
    exact hkeeps (process_keeps self adminUser reason token env.now h)

/-- In a run from a database without keys in which signing and writing succeed, no
inactive key ever has an active certificate if and only if none is issued on request
for an inactive key. -/
theorem quiet_iff (db : Db) (hempty : ∀ k, k ∉ db.sshKeys) (events : List Event)
    (hw : Along step Works db events) :
    Always step Quiet db events ↔ Along step IssuesForActive db events := by
  refine always_iff_along (I := Linked) ?_ ?_ hw ?_ ?_
  · exact fun db e hE h => (linked_step hE h).1
  · exact fun db e hE h hq => (linked_step hE h).2 hq
  · exact ⟨fun k hk => absurd hk (hempty k), fun k hk => absurd hk (hempty k),
      fun _ _ k hk => absurd hk (hempty k)⟩
  · exact fun k hk => absurd hk (hempty k)

/-! ## A key that is deleted -/

def oneUser : Db where
  users := ⟨[alice], by decide⟩

def keyOwnerCaller : Caller where
  id := 1
  isAuthenticated := true
  perms := [.addSshkey]
  objectPerms := [(.viewSshkey, 1), (.changeSshkey, 1), (.deleteSshkey, 1)]

def createOp : Op := .createKey keyOwnerCaller ⟨"laptop".toList, "ssh-ed25519 AAAA".toList, none⟩
def deleteOp : Op := .deleteKey keyOwnerCaller 1

theorem workingEnv_works {db : Db} {op : Op}
    (hdb : ∀ ca ∈ db.certificateAuthorities.toList,
      ca.publicKey ≠ [] ∧ ca.privateKey ≠ [] ∧ ca.fingerprint ≠ [])
    (hop : ∀ caller keyId payload, op ≠ .updateKey caller keyId payload) :
    Works db ⟨workingEnv, op⟩ := by
  have hparse : parsePublicKey workingEnv.sha256 (strip isSpace "ssh-ed25519 AAAA keywarden".toList) =
      .ok ⟨"ssh-ed25519".toList, "AAAA".toList, "SHA256:".toList ++ b64encode zerosDigest⟩ := by decide
  refine ⟨⟨authorityWorks_of rfl rfl (by decide) (by decide) hparse hdb, rfl, rfl⟩, rfl, ?_⟩
  exact fun caller keyId payload _ _ h => absurd h (hop caller keyId payload)

set_option maxRecDepth 4000 in
/-- Asked for the certificate file of a deleted key, the API refuses. -/
theorem quiet_after_download :
    Always step Quiet oneUser [⟨workingEnv, createOp⟩, ⟨workingEnv, deleteOp⟩,
      ⟨workingEnv, .downloadCertificate keyOwnerCaller 1⟩] := by
  refine (quiet_iff oneUser (Table.not_mem_empty) _ ?_).mpr ⟨trivial, trivial, trivial, trivial⟩
  refine ⟨?_, ?_, ?_, trivial⟩
  all_goals exact workingEnv_works (by decide) (by intros; nofun)

set_option maxRecDepth 4000 in
/-- Asked to issue one, it does. -/
theorem issue_after_delete :
    ¬ ∀ (db : Db) (events : List Event), (∀ k, k ∉ db.sshKeys) → Along step Works db events →
      Always step Quiet db events := by
  intro h
  let events : List Event := [⟨workingEnv, createOp⟩, ⟨workingEnv, deleteOp⟩,
    ⟨workingEnv, .issueCertificate keyOwnerCaller 1⟩]
  have hall := h oneUser events (Table.not_mem_empty) (by
    refine ⟨?_, ?_, ?_, trivial⟩
    all_goals exact workingEnv_works (by decide) (by intros; nofun))
  have hlast : Quiet (run step oneUser events) :=
    (always_iff _ _ _ _).mp hall events (List.prefix_refl events)
  have hkeys : (run step oneUser events).sshKeys.toList.map (fun k => (k.id, k.isActive)) =
      [(1, false)] := by decide
  have hcerts : (run step oneUser events).sshCertificates.toList.map (fun c => (c.key, c.isActive)) =
      [(1, true)] := by decide
  obtain ⟨k, hk, hk'⟩ := List.mem_map.mp (hkeys ▸ List.mem_singleton_self _)
  obtain ⟨c, hc, hc'⟩ := List.mem_map.mp (hcerts ▸ List.mem_singleton_self _)
  simp only [Prod.mk.injEq] at hk' hc'
  have hin := hlast k hk (.inl hk'.2) c hc (hc'.1.trans hk'.1.symm)
  rw [hc'.2] at hin
  exact absurd hin (by decide)

end Keywarden.KeyRun
