import Keywarden.Erasure
import Keywarden.Keys
import Keywarden.Transitions

/-!
# The key API

The handlers of `api/routers/keys.py` that write, the erasure of a user, and runs
of them. A key and its certificate are two rows. Every handler keeps the second
inactive while the first is, but for the one that issues a certificate on request.
-/
namespace Keywarden.KeyApi

open Rows Text Transitions Keys Erasure

structure KeyCreateIn where
  name : List Char
  publicKey : List Char
  userId : Option Int
  deriving DecidableEq, Repr

structure KeyUpdateIn where
  name : Option (List Char)
  isActive : Option Bool
  deriving DecidableEq, Repr

def emptyName : HttpError := ⟨422, some "name", "Name cannot be empty."⟩

def issuanceFailed (e : Raised) : HttpError :=
  ⟨500, some "detail", "Certificate issuance failed: " ++ e.text⟩

/-- What the handlers of a single key start with. -/
def findKey (caller : Caller) (perm : Perm) (keyId : Nat) (db : Db) : Except HttpError SSHKey :=
  if !caller.isAuthenticated then .error forbidden
  else match db.sshKeys.find keyId with
    | none => .error notFound
    | some key => if caller.hasObjectPerm perm key.id then .ok key else .error forbidden

/-- The owner of a new key; a `user_id` of zero is the same as none. -/
def keyOwner (caller : Caller) (userId : Option Int) (db : Db) : Except HttpError UserId :=
  let isAdmin := caller.hasPerm .addSshkey && caller.hasPerm .viewSshkey
  match userId with
  | none => .ok caller.id
  | some u =>
    if u = 0 then .ok caller.id
    else if isAdmin then
      match findUser u db with
      | none => .error ⟨404, none, "User not found"⟩
      | some user => .ok user.id
    else if u ≠ caller.id then .error forbidden
    else .ok caller.id

def newKey (env : Env) (owner : UserId) (name : List Char) : SSHKey where
  id := 0
  user := owner
  name := name
  publicKey := []
  keyType := []
  fingerprint := []
  isActive := true
  createdAt := env.now
  revokedAt := none

/-- The `post_save` receiver of a new key. -/
def assignSshKeyPerms (key : SSHKey) (db : Db) : Db :=
  assignPerm ⟨key.user, .deleteSshkey, key.id⟩ (assignPerm ⟨key.user, .changeSshkey, key.id⟩
    (assignPerm ⟨key.user, .viewSshkey, key.id⟩ db))

/-- `key.save()` on a key without an id. -/
def insertKey (env : Env) (key : SSHKey) : Call SSHKey := fun db =>
  if !(env.writes .key && keyFits key) then (.error writeFailed, db)
  else if db.sshKeys.any fun k => k.user = key.user && k.fingerprint = key.fingerprint then
    (.error .integrity, db)
  else
    let mk : Nat → SSHKey := fun id => { key with id := id }
    let key := mk db.sshKeys.fresh
    (.ok key, assignSshKeyPerms key { db with sshKeys := db.sshKeys.create mk })

/-- `key.save()` on a key that has one. -/
def saveKey (env : Env) (key : SSHKey) : Call SSHKey := fun db =>
  if env.writes .key && keyFits key then (.ok key, { db with sshKeys := db.sshKeys.save key })
  else (.error writeFailed, db)

/-- The body of the `transaction.atomic` block. -/
def insertAndIssue (env : Env) (caller : Caller) (key : SSHKey) : Call SSHKey :=
  (insertKey env key).bind fun key =>
    (issueCertificateForKey env key (some caller.id)).map fun _ => key

def creationFailed : Raised → Raised
  | .integrity => .http ⟨422, some "public_key", "Key already exists."⟩
  | e => .http (issuanceFailed e)

def createKey (env : Env) (caller : Caller) (payload : KeyCreateIn) : Call SSHKey := fun db =>
  if !caller.isAuthenticated then (.error (.http forbidden), db)
  else if !caller.hasPerm .addSshkey then (.error (.http forbidden), db)
  else match keyOwner caller payload.userId db with
    | .error e => (.error (.http e), db)
    | .ok owner =>
      let name := strip isSpace payload.name
      if name = [] then (.error (.http emptyName), db)
      else match setPublicKey env.sha256 payload.publicKey (newKey env owner name) with
        | .error e => (.error (.http ⟨422, some "public_key", e.text⟩), db)
        | .ok key => (insertAndIssue env caller key).atomic.mapError creationFailed db

def issueCertificate (env : Env) (caller : Caller) (keyId : Nat) : Call SSHCertificate := fun db =>
  match findKey caller .viewSshkey keyId db with
  | .error e => (.error (.http e), db)
  | .ok key => issueCertificateForKey env key (some caller.id) db

def ensureCertificate (env : Env) (key : SSHKey) (caller : Caller) : Call SSHCertificate := fun db =>
  if !key.isActive then (.error (.http ⟨409, none, "Key is revoked"⟩), db)
  else match db.sshCertificates.find key.id with
    | none => issueCertificateForKey env key (some caller.id) db
    | some cert =>
      if !cert.isActive || cert.validBefore ≤ env.now then
        issueCertificateForKey env key (some caller.id) db
      else (.ok cert, db)

/-- The key and the certificate that either download is about. -/
def downloaded (env : Env) (caller : Caller) (keyId : Nat) : Call (SSHKey × SSHCertificate) :=
  fun db =>
    match findKey caller .viewSshkey keyId db with
    | .error e => (.error (.http e), db)
    | .ok key => (ensureCertificate env key caller).map (fun cert => (key, cert)) db

def certificateFilename (key : SSHKey) : List Char :=
  "keywarden-".toList ++ str key.user ++ '-' :: str key.id ++ "-cert.pub".toList

/-- The body and the file name of the response. -/
def downloadCertificate (env : Env) (caller : Caller) (keyId : Nat) :
    Call (SignedCertificate × List Char) :=
  (downloaded env caller keyId).map fun (key, cert) => (cert.certificate, certificateFilename key)

def downloadCertificateHash (env : Env) (caller : Caller) (keyId : Nat) :
    Call (List Char × List Char) :=
  (downloaded env caller keyId).map fun (key, cert) =>
    let filename := certificateFilename key
    (env.certificateDigest cert.certificate ++ "  ".toList ++ filename ++ ['\n'],
      filename ++ ".sha256".toList)

/-- The key with the name of the payload. -/
def renamed (name : Option (List Char)) (key : SSHKey) : Except HttpError SSHKey :=
  match name with
  | none => .ok key
  | some name =>
    if strip isSpace name = [] then .error emptyName
    else .ok { key with name := strip isSpace name }

/-- The certificate is written before the key is saved. -/
def updateKey (env : Env) (caller : Caller) (keyId : Nat) (payload : KeyUpdateIn) : Call SSHKey :=
  fun db =>
    match findKey caller .changeSshkey keyId db with
    | .error e => (.error (.http e), db)
    | .ok key =>
      if payload.name = none ∧ payload.isActive = none then (.error (.http noFields), db)
      else match renamed payload.name key with
        | .error e => (.error (.http e), db)
        | .ok key =>
          match payload.isActive with
          | none => saveKey env key db
          | some true =>
            let key := { key with isActive := true, revokedAt := none }
            (((issueCertificateForKey env key (some caller.id)).mapError fun e =>
              .http (issuanceFailed e)).bind fun _ => saveKey env key) db
          | some false =>
            let key := { key with isActive := false, revokedAt := some env.now }
            ((revokeCertificateForKey env key).bind fun _ => saveKey env key) db

def deleteKey (env : Env) (caller : Caller) (keyId : Nat) : Call Unit := fun db =>
  match findKey caller .deleteSshkey keyId db with
  | .error e => (.error (.http e), db)
  | .ok key =>
    if key.isActive then
      if env.writes .key then
        revokeCertificateForKey env key { db with
          sshKeys := db.sshKeys.update (fun k => k.id = key.id) (revokedKey env.now) }
      else (.error writeFailed, db)
    else (.ok (), db)

/-! ## Runs -/

inductive Op where
  | createKey : Caller → KeyCreateIn → Op
  | issueCertificate : Caller → Nat → Op
  | downloadCertificate : Caller → Nat → Op
  | downloadCertificateHash : Caller → Nat → Op
  | updateKey : Caller → Nat → KeyUpdateIn → Op
  | deleteKey : Caller → Nat → Op
  | process : ErasureRequest → UserId → List Char → List Char → Op

structure Event where
  env : Env
  op : Op

def step (db : Db) (e : Event) : Db :=
  match e.op with
  | .createKey caller payload => (createKey e.env caller payload db).2
  | .issueCertificate caller keyId => (issueCertificate e.env caller keyId db).2
  | .downloadCertificate caller keyId => (downloadCertificate e.env caller keyId db).2
  | .downloadCertificateHash caller keyId => (downloadCertificateHash e.env caller keyId db).2
  | .updateKey caller keyId payload => (updateKey e.env caller keyId payload db).2
  | .deleteKey caller keyId => (deleteKey e.env caller keyId db).2
  | .process self adminUser reason token => (process self adminUser reason token e.env.now db).2

end Keywarden.KeyApi
