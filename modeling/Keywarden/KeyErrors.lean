import Keywarden.Profile

/-!
# What a failed call leaves of a key

A certificate is written before its key when a key is updated, and after it when a key is
added. Only the API that adds a key does both in one transaction; elsewhere the first
write stays when the second fails.
-/
namespace Keywarden.KeyErrors

open Rows Text Forms Keys KeyApi Profile

/-! ## An update -/

/-- The key and its certificate are as they were. -/
structure SameRows (keyId : Nat) (db db' : Db) : Prop where
  key : db'.sshKeys.find keyId = db.sshKeys.find keyId
  certificate : db'.sshCertificates.find keyId = db.sshCertificates.find keyId

/-- The instance with the active state of the payload. -/
def activated (now : Instant) (active : Bool) (key : SSHKey) : SSHKey :=
  { key with isActive := active, revokedAt := if active then none else some now }

/-- The certificate functions go through, and leave another certificate than there was. -/
def Recertifies (env : Env) (caller : Caller) (key : SSHKey) (db : Db) : Bool → Prop
  | true => SigningWorks env db ∧ (db.users.find key.user).isSome = true ∧
      ∀ cert, db.sshCertificates.find key.id = some cert →
        (issueCertificateForKey env (activated env.now true key) (some caller.id) db).1 ≠ .ok cert
  | false => env.writes .certificate = true ∧
      ∃ cert, db.sshCertificates.find key.id = some cert ∧ (revokedCertificate env.now).apply cert ≠ cert

/-- The row can be saved: the database takes it, with the name it has. -/
def Saves (env : Env) (key : SSHKey) : Prop := (env.writes .key && keyFits key) = true

theorem saveKey_error {env : Env} {key : SSHKey} {db db' : Db} {e : Raised}
    (h : saveKey env key db = (.error e, db')) : ¬ Saves env key ∧ db' = db := by
  unfold saveKey at h
  split at h
  · cases h
  · next hno =>
    cases h
    exact ⟨hno, rfl⟩

theorem saveKey_of_not_saves {env : Env} {key : SSHKey} (h : ¬ Saves env key) (db : Db) :
    saveKey env key db = (.error writeFailed, db) := by
  unfold saveKey
  rw [if_neg]
  exact h

/-- What the handler does about the certificate of the key. -/
def recertify (env : Env) (caller : Caller) (key : SSHKey) : Bool → Call Unit
  | true => ((issueCertificateForKey env (activated env.now true key) (some caller.id)).mapError
      fun e => .http (issuanceFailed e)).map fun _ => ()
  | false => revokeCertificateForKey env (activated env.now false key)

theorem updateKey_eq {env : Env} {caller : Caller} {keyId : Nat} {payload : KeyUpdateIn} {db : Db}
    {row key : SSHKey} {active : Bool} (hfind : findKey caller .changeSshkey keyId db = .ok row)
    (hname : renamed payload.name row = .ok key) (hactive : payload.isActive = some active) :
    updateKey env caller keyId payload db =
      ((recertify env caller key active).bind fun _ =>
        saveKey env (activated env.now active key)) db := by
  simp only [updateKey, hfind, hname, hactive, reduceCtorEq, and_false, if_false]
  cases active with
  | true =>
    rw [recertify, Call.bind_map]
    rfl
  | false => rfl

theorem recertify_sshKeys (env : Env) (caller : Caller) (key : SSHKey) (active : Bool) (db : Db) :
    (recertify env caller key active db).2.sshKeys = db.sshKeys := by
  cases active with
  | true => exact issueCertificateForKey_sshKeys env (activated env.now true key) (some caller.id) db
  | false => exact revokeCertificateForKey_sshKeys env (activated env.now false key) db

theorem recertify_ok {env : Env} {caller : Caller} {key : SSHKey} {active : Bool} {db : Db}
    (h : Recertifies env caller key db active) :
    ∃ db', recertify env caller key active db = (.ok (), db') := by
  cases active with
  | true =>
    obtain ⟨hworks, huser, _⟩ := h
    obtain ⟨cert, db', hissue⟩ := (issueCertificateForKey_ok_iff env (activated env.now true key)
      (some caller.id) db).mpr ⟨hworks, huser⟩
    exact ⟨db', by simp only [recertify, Call.map, Call.mapError, hissue, Except.map, Except.mapError]⟩
  | false =>
    exact ⟨_, revokeCertificateForKey_cases env (activated env.now false key) db h.1⟩

theorem issued_certificate_iff (env : Env) (caller : Caller) (key : SSHKey) (db : Db) :
    (recertify env caller key true db).2.sshCertificates.find key.id =
        db.sshCertificates.find key.id ↔ ¬ Recertifies env caller key db true := by
  have hok := issueCertificateForKey_ok_iff env (activated env.now true key) (some caller.id) db
  obtain ⟨t, ⟨e, he⟩ | ⟨cert, hkey, _, _, _, he⟩⟩ := issueCertificateForKey_cases env
    (activated env.now true key) (some caller.id) db
  · have hdb : (recertify env caller key true db).2 = { db with certificateAuthorities := t } := by
      simp only [recertify, Call.map_db, Call.mapError_db, he]
    rw [hdb]
    refine ⟨fun _ hr => ?_, fun _ => rfl⟩
    obtain ⟨cert, db', hissue⟩ := hok.mpr ⟨hr.1, hr.2.1⟩
    rw [he] at hissue
    cases hissue
  · have hdb : (recertify env caller key true db).2.sshCertificates = db.sshCertificates.upsert cert := by
      simp only [recertify, Call.map_db, Call.mapError_db, he]
    have hfound : (recertify env caller key true db).2.sshCertificates.find key.id = some cert := by
      rw [hdb, Table.find_upsert]
      exact if_pos hkey
    rw [hfound]
    constructor
    · intro hsame hr
      exact hr.2.2 cert hsame.symm (by rw [he])
    · intro hr
      by_contra hne
      refine hr ⟨(hok.mp ⟨cert, _, he⟩).1, (hok.mp ⟨cert, _, he⟩).2, fun c hc hissue => ?_⟩
      rw [he] at hissue
      cases hissue
      exact hne hc.symm

theorem revoked_certificate_iff (env : Env) (caller : Caller) (key : SSHKey) (db : Db) :
    (recertify env caller key false db).2.sshCertificates.find key.id =
        db.sshCertificates.find key.id ↔ ¬ Recertifies env caller key db false := by
  change (revokeCertificateForKey env (activated env.now false key) db).2.sshCertificates.find key.id =
    _ ↔ _
  cases hfind : db.sshCertificates.find key.id with
  | none =>
    have hcall : revokeCertificateForKey env (activated env.now false key) db = (.ok (), db) := by
      unfold revokeCertificateForKey
      rw [show (activated env.now false key).id = key.id from rfl, hfind]
    rw [hcall, hfind]
    simp [Recertifies, hfind]
  | some cert =>
    by_cases hw : env.writes .certificate = true
    · rw [revokeCertificateForKey_cases _ _ _ hw]
      simp only [Table.find_update, show (activated env.now false key).id = key.id from rfl, hfind,
        Option.map_some, show cert.key = key.id from ((Table.find_eq_some _ _ _).mp hfind).2,
        decide_true, if_true, Option.some.injEq, Recertifies, hw, true_and, exists_eq_left', ne_eq,
        not_not]
    · have hcall : revokeCertificateForKey env (activated env.now false key) db =
          (.error writeFailed, db) := by
        unfold revokeCertificateForKey
        rw [show (activated env.now false key).id = key.id from rfl, hfind]
        simp only [if_neg hw]
      rw [hcall, hfind]
      simp [Recertifies, hw]

/-- The certificate becomes another one exactly when the functions go through and change it. -/
theorem recertify_certificate_iff (env : Env) (caller : Caller) (key : SSHKey) (active : Bool)
    (db : Db) :
    (recertify env caller key active db).2.sshCertificates.find key.id =
        db.sshCertificates.find key.id ↔ ¬ Recertifies env caller key db active := by
  cases active with
  | true => exact issued_certificate_iff env caller key db
  | false => exact revoked_certificate_iff env caller key db

theorem renamed_id {name : Option (List Char)} {key key' : SSHKey}
    (h : renamed name key = .ok key') : key'.id = key.id := by
  obtain ⟨_, rfl⟩ := KeyRun.renamed_ok h
  rfl

/-- A call that recertifies and fails is one whose last write fails. -/
theorem recertified_error {env : Env} {caller : Caller} {key : SSHKey} {active : Bool} {db db' : Db}
    {e : Raised} (h : ((recertify env caller key active).bind fun _ =>
      saveKey env (activated env.now active key)) db = (.error e, db'))
    (hkept : Recertifies env caller key db active → Saves env key) : SameRows key.id db db' := by
  have hkeys := recertify_sshKeys env caller key active db
  have hsame : ¬ Recertifies env caller key db active → SameRows key.id db
      (recertify env caller key active db).2 := fun hnot =>
    ⟨by rw [hkeys], (recertify_certificate_iff env caller key active db).mpr hnot⟩
  obtain hfirst | ⟨_, db₁, hfirst, hsave⟩ := Call.bind_error h
  · have hnot : ¬ Recertifies env caller key db active := by
      intro hrec
      obtain ⟨db₁, hok⟩ := recertify_ok hrec
      rw [hfirst] at hok
      cases hok
    have hrows := hsame hnot
    rw [hfirst] at hrows
    exact hrows
  · obtain ⟨hnot, rfl⟩ := saveKey_error hsave
    have hrows := hsame fun hrec => hnot (hkept hrec)
    rw [hfirst] at hrows
    exact hrows

/-- A call that fails has changed nothing before the certificate functions. -/
theorem updateKey_error {env : Env} {caller : Caller} {keyId : Nat} {payload : KeyUpdateIn}
    {db db' : Db} {e : Raised} (h : updateKey env caller keyId payload db = (.error e, db')) :
    db' = db ∨ ∃ row key active, findKey caller .changeSshkey keyId db = .ok row ∧
      renamed payload.name row = .ok key ∧ payload.isActive = some active ∧
      ((recertify env caller key active).bind fun _ =>
        saveKey env (activated env.now active key)) db = (.error e, db') := by
  cases hfind : findKey caller .changeSshkey keyId db with
  | error refused =>
    simp only [updateKey, hfind] at h
    cases h
    exact .inl rfl
  | ok row =>
    cases hname : renamed payload.name row with
    | error refused =>
      simp only [updateKey, hfind, hname] at h
      split at h
      · cases h
        exact .inl rfl
      · cases h
        exact .inl rfl
    | ok key =>
      cases hactive : payload.isActive with
      | none =>
        simp only [updateKey, hfind, hname, hactive] at h
        split at h
        · cases h
          exact .inl rfl
        · exact .inl (saveKey_error h).2
      | some active =>
        rw [updateKey_eq hfind hname hactive] at h
        exact .inr ⟨row, key, active, rfl, hname, rfl, h⟩

/-- The key and its certificate stay as they were in every call that fails, unless the
certificate became another one and the row of the key cannot be saved. -/
theorem sameRows_iff (env : Env) (caller : Caller) (keyId : Nat) (payload : KeyUpdateIn) (db : Db) :
    (∀ e, (updateKey env caller keyId payload db).1 = .error e →
        SameRows keyId db (updateKey env caller keyId payload db).2) ↔
      ∀ row key active, findKey caller .changeSshkey keyId db = .ok row →
        renamed payload.name row = .ok key → payload.isActive = some active →
        Recertifies env caller key db active → Saves env key := by
  constructor
  · intro h row key active hfind hname hactive hrec
    by_contra hsaves
    have hid : key.id = keyId := (renamed_id hname).trans (KeyRun.findKey_id hfind)
    obtain ⟨db', hrecertify⟩ := recertify_ok hrec
    have hcall : updateKey env caller keyId payload db = (.error writeFailed, db') := by
      have hfails := @saveKey_of_not_saves env (activated env.now active key) hsaves db'
      simp only [updateKey_eq hfind hname hactive, Call.bind, hrecertify, hfails]
    have hsame := (h writeFailed (by rw [hcall])).certificate
    rw [hcall, ← hid] at hsame
    have hchanged := recertify_certificate_iff env caller key active db
    rw [hrecertify] at hchanged
    exact hchanged.mp hsame hrec
  · intro h e he
    rcases hcall : updateKey env caller keyId payload db with ⟨result, db'⟩
    rw [hcall] at he
    cases he
    obtain rfl | ⟨row, key, active, hfind, hname, hactive, hrest⟩ := updateKey_error hcall
    · exact ⟨rfl, rfl⟩
    · have hid : key.id = keyId := (renamed_id hname).trans (KeyRun.findKey_id hfind)
      rw [← hid]
      exact recertified_error hrest (h row key active hfind hname hactive)

def withKey : Db := KeyApi.step KeyRun.oneUser ⟨workingEnv, KeyRun.createOp⟩

/-- A revocation together with a name that does not fit its column. -/
def longName : KeyUpdateIn := ⟨some (List.replicate 129 'a'), some false⟩

set_option maxRecDepth 4000 in
/-- The call fails, and the certificate is revoked. -/
theorem revoked_all_the_same :
    ¬ ∀ (env : Env) (caller : Caller) (keyId : Nat) (payload : KeyUpdateIn) (db : Db) (e : Raised),
      (updateKey env caller keyId payload db).1 = .error e →
        SameRows keyId db (updateKey env caller keyId payload db).2 := by
  intro h
  have hfails : (updateKey workingEnv KeyRun.keyOwnerCaller 1 longName withKey).1.toBool = false := by
    decide +kernel
  obtain ⟨e, he⟩ := error_of_toBool hfails
  have hsame := (h workingEnv KeyRun.keyOwnerCaller 1 longName withKey e he).certificate
  have hactive : ((updateKey workingEnv KeyRun.keyOwnerCaller 1 longName
      withKey).2.sshCertificates.find 1).map SSHCertificate.isActive = some false := by decide +kernel
  rw [hsame] at hactive
  exact absurd hactive (by decide +kernel)

/-! ## A new key -/

/-- The form is valid and its key goes into the table. -/
structure Inserted (env : Env) (caller : Caller) (name publicKey : List Char) (key : SSHKey)
    (db : Db) : Prop where
  authenticated : caller.isAuthenticated = true
  permitted : caller.hasPerm .addSshkey = true
  nameValid : nameField.clean name = .ok (strip isSpace name)
  publicKeyValid : publicKeyField.clean publicKey = .ok (strip isSpace publicKey)
  parsed : setPublicKey env.sha256 (strip isSpace publicKey)
    (newKey env caller.id (strip isSpace name)) = .ok key
  saves : Saves env key
  unique : ∀ k ∈ db.sshKeys, ¬ (k.user = key.user ∧ k.fingerprint = key.fingerprint)

/-- The transaction is rolled back. -/
theorem createKey_error {env : Env} {caller : Caller} {payload : KeyCreateIn} {db : Db} {e : Raised}
    (h : (createKey env caller payload db).1 = .error e) : (createKey env caller payload db).2 = db := by
  rcases hcall : createKey env caller payload db with ⟨result, db'⟩
  rw [hcall] at h
  cases h
  unfold createKey at hcall
  split at hcall
  · cases hcall; rfl
  split at hcall
  · cases hcall; rfl
  split at hcall
  · cases hcall; rfl
  simp only at hcall
  split at hcall
  · cases hcall; rfl
  split at hcall
  · cases hcall; rfl
  · obtain ⟨_, hblock, _⟩ := Call.mapError_error hcall
    exact Call.atomic_error hblock

/-- The key with its id, and the database once it is in. -/
def withId (key : SSHKey) (db : Db) : SSHKey := { key with id := db.sshKeys.fresh }

def inserted (key : SSHKey) (db : Db) : Db :=
  assignSshKeyPerms (withId key db) { db with sshKeys := db.sshKeys.create fun id => { key with id := id } }

theorem insertKey_eq {env : Env} {key : SSHKey} {db : Db} (hsaves : Saves env key)
    (hunique : ∀ k ∈ db.sshKeys, ¬ (k.user = key.user ∧ k.fingerprint = key.fingerprint)) :
    insertKey env key db = (.ok (withId key db), inserted key db) := by
  have hany : (db.sshKeys.any fun k => k.user = key.user && k.fingerprint = key.fingerprint) = false := by
    rw [← Bool.not_eq_true, Table.any_iff]
    rintro ⟨k, hk, hsame⟩
    exact hunique k hk (by simpa using hsame)
  unfold insertKey
  rw [if_neg (by rw [show (env.writes .key && keyFits key) = true from hsaves]; decide),
    if_neg (by rw [hany]; decide)]
  rfl

theorem insertKey_error_or (env : Env) (key : SSHKey) (db : Db) :
    (∃ e, insertKey env key db = (.error e, db)) ∨ (Saves env key ∧
      ∀ k ∈ db.sshKeys, ¬ (k.user = key.user ∧ k.fingerprint = key.fingerprint)) := by
  unfold insertKey
  split
  · exact .inl ⟨_, rfl⟩
  next hsaves =>
  split
  · exact .inl ⟨_, rfl⟩
  next hany =>
  refine .inr ⟨by simpa [Saves] using hsaves, fun k hk hsame => ?_⟩
  exact hany ((Table.any_iff _ _).mpr ⟨k, hk, by simp [hsame]⟩)

/-- A key that goes in stays, and the call succeeds exactly if its certificate is issued. -/
theorem addKey_inserted {env : Env} {caller : Caller} {name publicKey : List Char} {key : SSHKey}
    {db : Db} (h : Inserted env caller name publicKey key db) :
    addKey env caller (strip isSpace name) (strip isSpace publicKey) db =
      issueCertificateForKey env (withId key db) (some caller.id) (inserted key db) := by
  simp only [addKey, h.parsed, Call.bind, insertKey_eq h.saves h.unique]

theorem issued_inserted_iff {env : Env} {caller : Caller} {name publicKey : List Char} {key : SSHKey}
    {db : Db} (h : Inserted env caller name publicKey key db) :
    (∃ cert db', issueCertificateForKey env (withId key db) (some caller.id) (inserted key db) =
      (.ok cert, db')) ↔ SigningWorks env db ∧ (db.users.find caller.id).isSome = true := by
  have huser : key.user = caller.id := (KeyRun.setPublicKey_ok h.parsed).1
  rw [issueCertificateForKey_ok_iff, show (withId key db).user = caller.id from huser]
  exact and_congr_left fun _ => signingWorks_congr rfl

/-- The page shows an error exactly if the certificate is not issued. -/
theorem postKey_inserted {env : Env} {caller : Caller} {name publicKey : List Char} {key : SSHKey}
    {db db' : Db} {result : Except Raised SSHCertificate}
    (h : Inserted env caller name publicKey key db)
    (hissue : issueCertificateForKey env (withId key db) (some caller.id) (inserted key db) =
      (result, db')) :
    (profile env caller (.sshKey name publicKey) db).2 = db' ∧
      (((∃ cert, result = .ok cert) ∧ (profile env caller (.sshKey name publicKey) db).1 = .profile) ∨
        ((∃ e, result = .error e) ∧
          ∃ errors, (profile env caller (.sshKey name publicKey) db).1 = .invalid errors)) := by
  simp only [profile, h.authenticated, Bool.not_true, Bool.false_eq_true, if_false, postKey,
    h.nameValid, h.publicKeyValid, h.permitted, if_true, strip_strip, addKey_inserted h, hissue]
  cases result with
  | error e => exact ⟨rfl, .inr ⟨⟨e, rfl⟩, _, rfl⟩⟩
  | ok cert => exact ⟨rfl, .inl ⟨⟨cert, rfl⟩, rfl⟩⟩

theorem addKey_not_inserted {env : Env} {caller : Caller} {name publicKey : List Char} {db : Db}
    (h : ∀ key, setPublicKey env.sha256 publicKey (newKey env caller.id name) = .ok key →
      ¬ (Saves env key ∧ ∀ k ∈ db.sshKeys, ¬ (k.user = key.user ∧ k.fingerprint = key.fingerprint))) :
    (addKey env caller name publicKey db).2 = db := by
  unfold addKey
  split
  · rfl
  next key hset =>
  obtain ⟨e, he⟩ := (insertKey_error_or env key db).resolve_right (h key hset)
  simp only [Call.bind, he]

theorem profile_not_inserted {env : Env} {caller : Caller} {name publicKey : List Char} {db : Db}
    (h : ∀ key, ¬ Inserted env caller name publicKey key db) :
    (profile env caller (.sshKey name publicKey) db).2 = db := by
  unfold profile
  split
  · rfl
  next hauth =>
  simp only [postKey]
  split
  · next name' publicKey' hname hkey =>
    obtain ⟨rfl, _⟩ := clean_ok hname
    obtain ⟨rfl, _⟩ := clean_ok hkey
    split
    · next hperm =>
      have hadd : (addKey env caller (strip isSpace (strip isSpace name))
          (strip isSpace (strip isSpace publicKey)) db).2 = db := addKey_not_inserted fun key hset hin =>
        h key ⟨by simpa using hauth, hperm, hname, hkey, by simpa only [strip_strip] using hset, hin.1,
          hin.2⟩
      rcases hcall : addKey env caller (strip isSpace (strip isSpace name))
        (strip isSpace (strip isSpace publicKey)) db with ⟨e | cert, db'⟩
      · rw [hcall] at hadd
        exact hadd
      · rw [hcall] at hadd
        exact hadd
    · rfl
  · rfl

/-- Neither way to add a key leaves one behind when it fails, exactly if a key that the
profile page inserts gets its certificate. -/
theorem noneLeft_iff (env : Env) (caller : Caller) (name publicKey : List Char) (db : Db) :
    ((∀ payload e, (createKey env caller payload db).1 = .error e →
        (createKey env caller payload db).2.sshKeys = db.sshKeys) ∧
      (∀ errors, (profile env caller (.sshKey name publicKey) db).1 = .invalid errors →
        (profile env caller (.sshKey name publicKey) db).2.sshKeys = db.sshKeys)) ↔
      ∀ key, Inserted env caller name publicKey key db →
        SigningWorks env db ∧ (db.users.find caller.id).isSome = true := by
  constructor
  · rintro ⟨_, h⟩ key hins
    by_contra hnot
    rcases hissue : issueCertificateForKey env (withId key db) (some caller.id) (inserted key db)
      with ⟨result, db'⟩
    obtain ⟨hdb, ⟨⟨cert, rfl⟩, _⟩ | ⟨_, errors, hpage⟩⟩ := postKey_inserted hins hissue
    · exact hnot ((issued_inserted_iff hins).mp ⟨cert, db', hissue⟩)
    · have hkeys := issueCertificateForKey_sshKeys env (withId key db) (some caller.id)
        (inserted key db)
      have hsame := h errors hpage
      rw [hissue] at hkeys
      rw [hdb, hkeys] at hsame
      have hmem : withId key db ∈ (inserted key db).sshKeys :=
        (Table.mem_create _ _ (fun _ => rfl) _).mpr (.inr rfl)
      rw [hsame] at hmem
      exact absurd (Table.key_lt_fresh _ hmem) (Nat.lt_irrefl _)
  · intro h
    refine ⟨fun payload e he => by rw [createKey_error he], fun errors herrors => ?_⟩
    by_cases hins : ∃ key, Inserted env caller name publicKey key db
    · obtain ⟨key, hins⟩ := hins
      obtain ⟨cert, db', hissue⟩ := (issued_inserted_iff hins).mpr (h key hins)
      obtain ⟨_, ⟨_, hpage⟩ | ⟨⟨e, he⟩, _⟩⟩ := postKey_inserted hins hissue
      · rw [hpage] at herrors
        cases herrors
      · cases he
    · rw [profile_not_inserted (not_exists.mp hins)]

def noSigning : Env := { workingEnv with signError := some "ssh-keygen not available" }

set_option maxRecDepth 4000 in
/-- Without `ssh-keygen` the page reports an error, and the key is there. -/
theorem key_left_behind :
    ¬ ∀ (env : Env) (caller : Caller) (name publicKey : List Char) (db : Db),
      (∀ payload e, (createKey env caller payload db).1 = .error e →
        (createKey env caller payload db).2.sshKeys = db.sshKeys) ∧
      (∀ errors, (profile env caller (.sshKey name publicKey) db).1 = .invalid errors →
        (profile env caller (.sshKey name publicKey) db).2.sshKeys = db.sshKeys) := by
  intro h
  let form : ProfileForm := .sshKey "laptop".toList "ssh-ed25519 AAAA".toList
  have hpage : (profile noSigning KeyRun.keyOwnerCaller form KeyRun.oneUser).1 =
      .invalid [⟨none, "Certificate issuance failed."⟩] := by decide +kernel
  have hkeys : (profile noSigning KeyRun.keyOwnerCaller form KeyRun.oneUser).2.sshKeys.toList.map
      SSHKey.id = [1] := by decide +kernel
  have hsame := (h noSigning KeyRun.keyOwnerCaller "laptop".toList "ssh-ed25519 AAAA".toList
    KeyRun.oneUser).2 _ hpage
  rw [hsame] at hkeys
  exact absurd hkeys (by decide)

end Keywarden.KeyErrors
