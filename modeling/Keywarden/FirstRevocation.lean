import Keywarden.KeyErrors

/-!
# The time of revocation

A key is revoked by an update that makes it inactive, by a deletion and by the erasure of its user,
and its certificate with it. The deletion looks whether the key is active and the erasure selects
the active rows; the update writes the time again, whatever there is.
-/
namespace Keywarden.FirstRevocation

open Rows Text Transitions Keys KeyApi KeyErrors Erasure

/-- A call that revokes keys. -/
inductive Revocation where
  | updateKey (caller : Caller) (keyId : Nat) (name : Option (List Char))
  | deleteKey (caller : Caller) (keyId : Nat)
  | process (self : ErasureRequest) (adminUser : UserId) (reason token : List Char)

def Revocation.op : Revocation → Op
  | .updateKey caller keyId name => .updateKey caller keyId ⟨name, some false⟩
  | .deleteKey caller keyId => .deleteKey caller keyId
  | .process self adminUser reason token => .process self adminUser reason token

def revoke (db : Db) (e : Env × Revocation) : Db := step db ⟨e.1, e.2.op⟩

/-- `is_active` and `revoked_at`. -/
abbrev Record := Bool × Option Instant

def keyRecord (keyId : Nat) (db : Db) : Option Record :=
  (db.sshKeys.find keyId).map fun key => (key.isActive, key.revokedAt)

def certificateRecord (keyId : Nat) (db : Db) : Option Record :=
  (db.sshCertificates.find keyId).map fun cert => (cert.isActive, cert.revokedAt)

/-- What is recorded of a key and of its certificate. -/
def recorded (keyId : Nat) (db : Db) : Option Record × Option Record :=
  (keyRecord keyId db, certificateRecord keyId db)

/-- The key is revoked, and its certificate, if it has one, is too. -/
structure Revoked (keyId : Nat) (db : Db) : Prop where
  key : ∃ t, keyRecord keyId db = some (false, some t)
  certificate : ∀ r, certificateRecord keyId db = some r → ∃ t, r = (false, some t)

/-- The certificate is there and is written at another time than it has. -/
def StampsCertificate (env : Env) (keyId : Nat) (db : Db) : Prop :=
  env.writes .certificate = true ∧ ∃ cert, db.sshCertificates.find keyId = some cert ∧
    cert.revokedAt ≠ some env.now

/-- Nothing fails before the key is saved. -/
def Reaches (env : Env) (key : SSHKey) (db : Db) : Prop :=
  Saves env key ∧ ((db.sshCertificates.find key.id).isSome = true → env.writes .certificate = true)

instance (env : Env) (key : SSHKey) (db : Db) : Decidable (Reaches env key db) :=
  inferInstanceAs (Decidable ((env.writes .key && keyFits key) = true ∧
    ((db.sshCertificates.find key.id).isSome = true → env.writes .certificate = true)))

/-- An update to inactive of the key that its checks let through, and that writes the certificate
or the key at another time than it has. -/
def Restamps (keyId : Nat) (db : Db) (e : Env × Revocation) : Prop :=
  match e.2 with
  | .updateKey caller id name => id = keyId ∧ ∃ row key,
      findKey caller .changeSshkey keyId db = .ok row ∧ renamed name row = .ok key ∧
      (StampsCertificate e.1 keyId db ∨ Reaches e.1 key db ∧ key.revokedAt ≠ some e.1.now)
  | _ => False

/-! ## What a call records -/

theorem find_revokeCertificate (env : Env) (key : SSHKey) (db : Db) (keyId : Nat) :
    (revokeCertificateForKey env key db).2.sshCertificates.find keyId =
      (db.sshCertificates.find keyId).map fun cert =>
        if env.writes .certificate = true ∧ keyId = key.id then (revokedCertificate env.now).apply cert
        else cert := by
  by_cases hw : env.writes .certificate = true
  · rw [revokeCertificateForKey_cases env key db hw]
    simp only [Table.find_update, hw, true_and]
    cases hfind : db.sshCertificates.find keyId with
    | none => rfl
    | some cert =>
      have hkey : cert.key = keyId := ((Table.find_eq_some _ _ _).mp hfind).2
      simp only [Option.map_some, hkey, decide_eq_true_eq]
  · have hdb : (revokeCertificateForKey env key db).2 = db := by
      unfold revokeCertificateForKey
      split
      · rfl
      · rw [if_neg hw]
    simp [hdb, hw]

theorem revokeCertificate_ok_iff (env : Env) (key : SSHKey) (db : Db) :
    (revokeCertificateForKey env key db).1 = .ok () ↔
      ((db.sshCertificates.find key.id).isSome = true → env.writes .certificate = true) := by
  unfold revokeCertificateForKey
  cases db.sshCertificates.find key.id with
  | none => simp
  | some cert => by_cases hw : env.writes .certificate = true <;> simp [hw]

/-- The certificate of another key is not touched. -/
theorem certificateRecord_revoke (env : Env) (key : SSHKey) (db : Db) (keyId : Nat) :
    certificateRecord keyId (revokeCertificateForKey env key db).2 =
      if env.writes .certificate = true ∧ keyId = key.id then
        (certificateRecord keyId db).map fun _ => (false, some env.now)
      else certificateRecord keyId db := by
  rw [certificateRecord, find_revokeCertificate, certificateRecord]
  cases db.sshCertificates.find keyId with
  | none => simp
  | some cert => by_cases h : env.writes .certificate = true ∧ keyId = key.id <;> simp [h, revokedCertificate]

theorem keyRecord_revoke (env : Env) (key : SSHKey) (db : Db) (keyId : Nat) :
    keyRecord keyId (revokeCertificateForKey env key db).2 = keyRecord keyId db := by
  rw [keyRecord, revokeCertificateForKey_sshKeys, keyRecord]

/-- An update to inactive that is refused leaves everything. -/
theorem updateKey_refused {env : Env} {caller : Caller} {keyId : Nat} {name : Option (List Char)}
    {db : Db} (h : ¬ ∃ row key, findKey caller .changeSshkey keyId db = .ok row ∧
      renamed name row = .ok key) : (updateKey env caller keyId ⟨name, some false⟩ db).2 = db := by
  cases hfind : findKey caller .changeSshkey keyId db with
  | error e => simp only [updateKey, hfind]
  | ok row =>
    cases hname : renamed name row with
    | error e => simp only [updateKey, hfind, hname, reduceCtorEq, and_false, if_false]
    | ok key => exact absurd ⟨row, key, hfind, hname⟩ h

theorem certificateRecord_congr {keyId : Nat} {db db' : Db}
    (h : db'.sshCertificates = db.sshCertificates) :
    certificateRecord keyId db' = certificateRecord keyId db := by
  rw [certificateRecord, h, certificateRecord]

theorem saveKey_certificates (env : Env) (key : SSHKey) (db : Db) :
    (saveKey env key db).2.sshCertificates = db.sshCertificates := by
  unfold saveKey
  split
  · rfl
  · rfl

theorem keyRecord_save (env : Env) (key : SSHKey) (db : Db) (keyId : Nat) :
    keyRecord keyId (saveKey env key db).2 =
      if (env.writes .key && keyFits key) = true ∧ key.id = keyId then
        (keyRecord keyId db).map fun _ => (key.isActive, key.revokedAt)
      else keyRecord keyId db := by
  unfold saveKey
  by_cases hsaves : (env.writes .key && keyFits key) = true
  · rw [if_pos hsaves, keyRecord, Table.find_save, key_sshKey, keyRecord]
    by_cases hid : key.id = keyId
    · rw [if_pos hid, if_pos ⟨hsaves, hid⟩, Option.map_map, Option.map_map]
      rfl
    · rw [if_neg hid, if_neg fun h => hid h.2]
  · rw [if_neg hsaves, if_neg fun h => hsaves h.1]

section Update
variable {env : Env} {caller : Caller} {id keyId : Nat} {name : Option (List Char)} {db : Db}
  {row key : SSHKey}

/-- An update that is not refused writes the certificate of its key, if it can. -/
theorem certificateRecord_update (hfind : findKey caller .changeSshkey id db = .ok row)
    (hname : renamed name row = .ok key) :
    certificateRecord keyId (updateKey env caller id ⟨name, some false⟩ db).2 =
      if env.writes .certificate = true ∧ keyId = id then
        (certificateRecord keyId db).map fun _ => (false, some env.now)
      else certificateRecord keyId db := by
  have hid : key.id = id := (renamed_id hname).trans (KeyRun.findKey_id hfind)
  have hrevoke := certificateRecord_revoke env (activated env.now false key) db keyId
  rw [show (activated env.now false key).id = id from hid] at hrevoke
  rw [updateKey_eq hfind hname rfl, ← hrevoke]
  obtain hdb | ⟨_, hdb⟩ := Call.bind_db (recertify env caller key false)
    (fun _ => saveKey env (activated env.now false key)) db
  · rw [hdb]
    rfl
  · rw [hdb, certificateRecord_congr (saveKey_certificates env _ _)]
    rfl

/-- Then it saves the key, if nothing has failed. -/
theorem keyRecord_update (hfind : findKey caller .changeSshkey id db = .ok row)
    (hname : renamed name row = .ok key) :
    keyRecord keyId (updateKey env caller id ⟨name, some false⟩ db).2 =
      if Reaches env key db ∧ keyId = id then (keyRecord keyId db).map fun _ => (false, some env.now)
      else keyRecord keyId db := by
  have hid : key.id = id := (renamed_id hname).trans (KeyRun.findKey_id hfind)
  have hok := revokeCertificate_ok_iff env (activated env.now false key) db
  have hkept := keyRecord_revoke env (activated env.now false key) db keyId
  rw [updateKey_eq hfind hname rfl]
  rcases hcall : recertify env caller key false db with ⟨e | _, db'⟩
  · rw [show revokeCertificateForKey env (activated env.now false key) db = (.error e, db') from hcall]
      at hok hkept
    rw [if_neg fun h => by simpa using hok.mpr h.1.2]
    simpa only [Call.bind, hcall] using hkept
  · rw [show revokeCertificateForKey env (activated env.now false key) db = (.ok (), db') from hcall]
      at hok hkept
    have hreaches : Reaches env key db ∧ keyId = id ↔
        (env.writes .key && keyFits (activated env.now false key)) = true ∧
          (activated env.now false key).id = keyId :=
      and_congr ⟨fun h => h.1, fun h => ⟨h, hok.mp rfl⟩⟩
        (eq_comm.trans (by rw [← hid]; rfl))
    have hsave := keyRecord_save env (activated env.now false key) db' keyId
    rw [hkept] at hsave
    simp only [Call.bind, hcall, hreaches]
    exact hsave

end Update

/-! ## What stays of a revoked key -/

variable {keyId : Nat} {db : Db}

theorem Revoked.key_inactive (h : Revoked keyId db) :
    ∀ key ∈ db.sshKeys.find keyId, key.isActive = false := by
  intro key hfind
  obtain ⟨t, ht⟩ := h.key
  rw [keyRecord, hfind, Option.map_some, Option.some.injEq] at ht
  exact (Prod.mk.inj ht).1

theorem Revoked.certificate_inactive (h : Revoked keyId db) :
    ∀ cert ∈ db.sshCertificates.find keyId, cert.isActive = false := by
  intro cert hfind
  obtain ⟨t, ht⟩ := h.certificate (cert.isActive, cert.revokedAt) (by rw [certificateRecord, hfind]; rfl)
  exact (Prod.mk.inj ht).1

/-- A bulk update of active rows leaves what is recorded of inactive ones. -/
theorem keyRecord_bulk (h : Revoked keyId db) (now : Instant) {p : SSHKey → Bool}
    (hp : ∀ key ∈ db.sshKeys.find keyId, p key = true → key.isActive = true) :
    ((db.sshKeys.update p (revokedKey now)).find keyId).map (fun key => (key.isActive, key.revokedAt)) =
      keyRecord keyId db := by
  rw [keyRecord, Table.find_update_of_not]
  intro key hfind
  refine Bool.eq_false_iff.mpr fun htrue => ?_
  exact absurd (hp key hfind htrue) (by simp [h.key_inactive key hfind])

theorem certificateRecord_bulk (h : Revoked keyId db) (now : Instant) {p : SSHCertificate → Bool}
    (hp : ∀ cert, p cert = true → cert.isActive = true) :
    ((db.sshCertificates.update p (revokedCertificate now)).find keyId).map
      (fun cert => (cert.isActive, cert.revokedAt)) = certificateRecord keyId db := by
  rw [certificateRecord, Table.find_update_of_not]
  intro cert hfind
  refine Bool.eq_false_iff.mpr fun htrue => ?_
  exact absurd (hp cert htrue) (by simp [h.certificate_inactive cert hfind])

/-- An erasure revokes what is active. -/
theorem recorded_process (h : Revoked keyId db) (self : ErasureRequest) (adminUser : UserId)
    (reason token : List Char) (now : Instant) :
    recorded keyId (process self adminUser reason token now db).2 = recorded keyId db := by
  unfold process
  split
  · rfl
  · refine Prod.ext ?_ ?_
    · exact keyRecord_bulk h now fun key _ hp => (Bool.and_eq_true_iff.mp hp).2
    · exact certificateRecord_bulk h now fun cert hp => (Bool.and_eq_true_iff.mp hp).2

/-- A deletion leaves a key that is not active, and never touches another one. -/
theorem recorded_delete (h : Revoked keyId db) (env : Env) (caller : Caller) (id : Nat) :
    recorded keyId (deleteKey env caller id db).2 = recorded keyId db := by
  unfold deleteKey
  split
  · rfl
  · next key hkey =>
    have hid : key.id = id := KeyRun.findKey_id hkey
    by_cases hactive : key.isActive = true
    · rw [if_pos hactive]
      split
      · have hne : keyId ≠ key.id := by
          rintro rfl
          have hinactive := h.key_inactive key (hid ▸ KeyRun.find_of_findKey hkey)
          rw [hactive] at hinactive
          cases hinactive
        refine Prod.ext ?_ ?_
        · refine (keyRecord_revoke env key _ keyId).trans (keyRecord_bulk h env.now fun k hk hp => ?_)
          have hk : k.id = keyId := ((Table.find_eq_some _ _ _).mp hk).2
          exact absurd (hk.symm.trans (of_decide_eq_true hp)) hne
        · refine (certificateRecord_revoke env key _ keyId).trans ?_
          rw [if_neg fun hwrites => hne hwrites.2]
          rfl
      · rfl
    · rw [if_neg hactive]

theorem stamped_certificate_iff (h : Revoked keyId db) (env : Env) :
    (if env.writes .certificate = true then
        (certificateRecord keyId db).map fun _ => (false, some env.now)
      else certificateRecord keyId db) = certificateRecord keyId db ↔
      ¬ StampsCertificate env keyId db := by
  by_cases hw : env.writes .certificate = true
  · rw [if_pos hw]
    have hrevoked := h.certificate
    unfold certificateRecord at hrevoked ⊢
    cases hfind : db.sshCertificates.find keyId with
    | none => simp [StampsCertificate, hfind]
    | some cert =>
      rw [hfind] at hrevoked
      obtain ⟨t, ht⟩ := hrevoked _ rfl
      obtain ⟨hinactive, ht⟩ := Prod.mk.inj ht
      simp [StampsCertificate, hfind, hw, hinactive, eq_comm]
  · simp [StampsCertificate, hw]

theorem stamped_key_iff {env : Env} {caller : Caller} {name : Option (List Char)} {row key : SSHKey}
    (h : Revoked keyId db) (hfind : findKey caller .changeSshkey keyId db = .ok row)
    (hname : renamed name row = .ok key) :
    (if Reaches env key db then (keyRecord keyId db).map fun _ => (false, some env.now)
      else keyRecord keyId db) = keyRecord keyId db ↔
      ¬ (Reaches env key db ∧ key.revokedAt ≠ some env.now) := by
  obtain ⟨t, ht⟩ := h.key
  have hrow : row.revokedAt = some t := by
    rw [keyRecord, KeyRun.find_of_findKey hfind, Option.map_some, Option.some.injEq] at ht
    exact (Prod.mk.inj ht).2
  have hkey : key.revokedAt = some t := by
    obtain ⟨_, rfl⟩ := KeyRun.renamed_ok hname
    exact hrow
  rw [ht, hkey]
  by_cases hreaches : Reaches env key db
  · simp [hreaches, eq_comm]
  · simp [hreaches]

/-- An update to inactive leaves what is recorded unless it stamps the key or the certificate. -/
theorem recorded_update_iff (h : Revoked keyId db) (env : Env) (caller : Caller) (id : Nat)
    (name : Option (List Char)) :
    recorded keyId (updateKey env caller id ⟨name, some false⟩ db).2 = recorded keyId db ↔
      ¬ Restamps keyId db (env, .updateKey caller id name) := by
  by_cases hok : ∃ row key, findKey caller .changeSshkey id db = .ok row ∧ renamed name row = .ok key
  · obtain ⟨row, key, hfind, hname⟩ := hok
    rw [recorded, recorded, keyRecord_update hfind hname, certificateRecord_update hfind hname,
      Prod.mk.injEq]
    by_cases hid : id = keyId
    · subst hid
      simp only [and_true]
      rw [stamped_key_iff h hfind hname, stamped_certificate_iff h, ← not_or, not_iff_not]
      constructor
      · exact fun hstamps => ⟨rfl, row, key, hfind, hname, hstamps.symm⟩
      · rintro ⟨-, row', key', hfind', hname', hstamps⟩
        rw [hfind] at hfind'
        cases hfind'
        rw [hname] at hname'
        cases hname'
        exact hstamps.symm
    · have hne : ¬ keyId = id := fun heq => hid heq.symm
      simp only [hne, and_false, if_false, and_self, true_iff]
      exact fun hr => hid hr.1
  · rw [updateKey_refused hok]
    refine ⟨fun _ hr => ?_, fun _ => rfl⟩
    obtain ⟨rfl, row, key, hfind, hname, -⟩ := hr
    exact hok ⟨row, key, hfind, hname⟩

theorem Revoked.congr {db' : Db} (h : Revoked keyId db)
    (hsame : recorded keyId db' = recorded keyId db) : Revoked keyId db' := by
  obtain ⟨hkey, hcert⟩ := Prod.mk.inj hsame
  exact ⟨hkey ▸ h.key, hcert ▸ h.certificate⟩

/-- Whatever is written, the key and its certificate stay revoked. -/
theorem revoked_revoke (h : Revoked keyId db) (e : Env × Revocation) :
    Revoked keyId (revoke db e) := by
  obtain ⟨env, revocation⟩ := e
  cases revocation with
  | updateKey caller id name =>
    change Revoked keyId (updateKey env caller id ⟨name, some false⟩ db).2
    by_cases hok : ∃ row key, findKey caller .changeSshkey id db = .ok row ∧ renamed name row = .ok key
    · obtain ⟨row, key, hfind, hname⟩ := hok
      constructor
      · rw [keyRecord_update hfind hname]
        obtain ⟨t, ht⟩ := h.key
        split
        · exact ⟨env.now, by rw [ht, Option.map_some]⟩
        · exact ⟨t, ht⟩
      · rw [certificateRecord_update hfind hname]
        split
        · intro r hr
          obtain ⟨_, _, rfl⟩ := Option.map_eq_some_iff.mp hr
          exact ⟨env.now, rfl⟩
        · exact h.certificate
    · rw [updateKey_refused hok]
      exact h
  | deleteKey caller id => exact h.congr (recorded_delete h env caller id)
  | process self adminUser reason token =>
    exact h.congr (recorded_process h self adminUser reason token env.now)

theorem recorded_revoke_iff (h : Revoked keyId db) (e : Env × Revocation) :
    recorded keyId (revoke db e) = recorded keyId db ↔ ¬ Restamps keyId db e := by
  obtain ⟨env, revocation⟩ := e
  cases revocation with
  | updateKey caller id name => exact recorded_update_iff h env caller id name
  | deleteKey caller id => exact ⟨fun _ hr => hr, fun _ => recorded_delete h env caller id⟩
  | process self adminUser reason token =>
    exact ⟨fun _ hr => hr, fun _ => recorded_process h self adminUser reason token env.now⟩

/-- In any run of revocations, the recorded times stay the first ones exactly when no call is an
update that stamps. -/
theorem always_recorded_iff (h : Revoked keyId db) (events : List (Env × Revocation)) :
    Always revoke (fun s => recorded keyId s = recorded keyId db) db events ↔
      Along revoke (fun s e => ¬ Restamps keyId s e) db events := by
  refine always_iff_along (E := fun _ _ => True) (I := Revoked keyId) ?_ ?_
    (along_of_mem db fun _ _ => trivial) h rfl
  · exact fun s e _ hs => revoked_revoke hs e
  · intro s e _ hs hsame
    rw [← recorded_revoke_iff hs e, hsame]

/-- A key with a certificate, revoked at 1000. -/
def revokedKeyDb : Db := revoke withKey (workingEnv, .updateKey KeyRun.keyOwnerCaller 1 none)

def later : Env := { workingEnv with now := 2000 }

theorem revoked_revokedKeyDb : Revoked 1 revokedKeyDb := by
  have hrecorded : recorded 1 revokedKeyDb = (some (false, some 1000), some (false, some 1000)) := by
    decide +kernel
  obtain ⟨hkey, hcert⟩ := Prod.mk.inj hrecorded
  refine ⟨⟨1000, hkey⟩, fun r hr => ⟨1000, ?_⟩⟩
  rw [hcert] at hr
  exact (Option.some.inj hr).symm

/-- The owner makes the key inactive once more. -/
theorem revoked_again : ¬ ∀ (keyId : Nat) (db : Db) (events : List (Env × Revocation)),
    Revoked keyId db → Always revoke (fun s => recorded keyId s = recorded keyId db) db events := by
  intro h
  have hsame := (h 1 revokedKeyDb [(later, .updateKey KeyRun.keyOwnerCaller 1 none)]
    revoked_revokedKeyDb).2
  exact absurd hsame (by decide +kernel)

/-- Deleted, and then erased with its user. -/
theorem recorded_deleted : Always revoke (fun s => recorded 1 s = recorded 1 revokedKeyDb) revokedKeyDb
    [(later, .deleteKey KeyRun.keyOwnerCaller 1),
      (later, .process ⟨1, 1, [], .pending, 0, none, none, [], none, none⟩ 2 [] "token".toList)] :=
  (always_recorded_iff revoked_revokedKeyDb _).mpr ⟨id, id, trivial⟩

end Keywarden.FirstRevocation
