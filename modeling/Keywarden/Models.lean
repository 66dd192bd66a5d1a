import Mathlib.Data.Finset.Basic
import Keywarden.Rows

/-!
# The database

The rows of the Django models the handlers read and write, under the models'
own field names, and the database that holds them. Guardian's per-object user
permissions are a finite set: `assign_perm` adds a row, `remove_perm` deletes it.
-/
namespace Keywarden

open Rows

/-- Microseconds since the epoch. -/
abbrev Instant := Int

abbrev UserId := Nat
abbrev ServerId := Nat

/-- A `datetime` as the schemas parse it: with or without a time zone. -/
inductive Datetime where
  | naive : Int → Datetime
  | aware : Instant → Datetime
  deriving DecidableEq, Repr

/-- `settings`, and the zone data `make_aware` reads. -/
structure Settings where
  makeAware : Int → Instant
  accountUsernameTemplate : List Char
  userCertValidityDays : Nat
  shellCertValidityMinutes : Nat

def Settings.toInstant (cfg : Settings) : Datetime → Instant
  | .naive wall => cfg.makeAware wall
  | .aware t => t

/-- The permission codenames the handlers ask for. -/
inductive Perm where
  | viewServer | shellServer
  | addAccessrequest | viewAccessrequest | changeAccessrequest
  | addSshkey | viewSshkey | changeSshkey | deleteSshkey
  deriving DecidableEq, Repr

/-- A row of guardian's `UserObjectPermission`. The codename fixes the model, so
the object is its primary key alone. -/
structure UserObjectPermission where
  user : UserId
  permission : Perm
  object : Nat
  deriving DecidableEq, Repr

/-- `request.user` and what `has_perm` answers for it, globally and on objects. -/
structure Caller where
  id : UserId
  isAuthenticated : Bool
  perms : List Perm
  objectPerms : List (Perm × Nat)
  deriving DecidableEq, Repr

def Caller.hasPerm (c : Caller) (p : Perm) : Bool := c.perms.contains p
def Caller.hasObjectPerm (c : Caller) (p : Perm) (o : Nat) : Bool := c.objectPerms.contains (p, o)

/-- `HttpError`: the status, the field its detail is filed under, the message. -/
structure HttpError where
  status : Nat
  field : Option String
  message : String
  deriving DecidableEq, Repr

def forbidden : HttpError := ⟨403, none, "Forbidden"⟩
def notFound : HttpError := ⟨404, none, "Not Found"⟩
def noFields : HttpError := ⟨422, some "detail", "No fields provided."⟩

structure User where
  id : UserId
  username : List Char
  email : List Char
  firstName : List Char
  lastName : List Char
  /-- `none` is an unusable password. -/
  password : Option String
  isActive : Bool
  isStaff : Bool
  isSuperuser : Bool
  lastLogin : Option Instant
  groups : Finset String
  userPermissions : Finset Perm
  deriving DecidableEq

instance : Keyed User Nat := ⟨User.id⟩

/-- `AccessRequest.Status`. -/
inductive Status where
  | pending | approved | denied | revoked | cancelled | expired
  deriving DecidableEq, Repr

/-- The stored text of a status. -/
def Status.value : Status → String
  | .pending => "pending"
  | .approved => "approved"
  | .denied => "denied"
  | .revoked => "revoked"
  | .cancelled => "cancelled"
  | .expired => "expired"

structure AccessRequest where
  id : Nat
  requester : UserId
  server : ServerId
  status : Status
  reason : List Char
  requestShell : Bool
  requestLogs : Bool
  requestUsers : Bool
  requestedAt : Instant
  decidedAt : Option Instant
  expiresAt : Option Instant
  decidedBy : Option UserId
  deriving DecidableEq, Repr

instance : Keyed AccessRequest Nat := ⟨AccessRequest.id⟩

@[simp] theorem key_accessRequest (r : AccessRequest) : Keyed.key r = r.id := rfl

/-- `ErasureRequest.Status`. -/
inductive ErasureStatus where
  | pending | denied | processed
  deriving DecidableEq, Repr

structure ErasureRequest where
  id : Nat
  user : UserId
  reason : List Char
  status : ErasureStatus
  requestedAt : Instant
  decidedAt : Option Instant
  decidedBy : Option UserId
  decisionReason : List Char
  processedAt : Option Instant
  processedBy : Option UserId
  deriving DecidableEq, Repr

instance : Keyed ErasureRequest Nat := ⟨ErasureRequest.id⟩

structure SSHKey where
  id : Nat
  user : UserId
  name : List Char
  publicKey : List Char
  keyType : List Char
  fingerprint : List Char
  isActive : Bool
  createdAt : Instant
  revokedAt : Option Instant
  deriving DecidableEq, Repr

instance : Keyed SSHKey Nat := ⟨SSHKey.id⟩

@[simp] theorem key_sshKey (k : SSHKey) : Keyed.key k = k.id := rfl

structure SSHCertificateAuthority where
  id : Nat
  name : List Char
  publicKey : List Char
  privateKey : List Char
  fingerprint : List Char
  createdAt : Instant
  revokedAt : Option Instant
  isActive : Bool
  createdBy : Option UserId
  deriving DecidableEq, Repr

instance : Keyed SSHCertificateAuthority Nat := ⟨SSHCertificateAuthority.id⟩

/-- What `ssh-keygen -s` puts into a certificate: the key pair that signs, the
line of the public key file, and the values of `-I`, `-n`, `-V` and `-z`. -/
structure SignedCertificate where
  caPrivateKey : List Char
  caPublicKey : List Char
  publicKeyLine : List Char
  identity : List Char
  principals : List Char
  validity : List Char
  serial : Nat
  deriving DecidableEq, Repr

structure SSHCertificate where
  key : Nat
  user : UserId
  certificate : SignedCertificate
  serial : Nat
  principals : List (List Char)
  validAfter : Instant
  validBefore : Instant
  revokedAt : Option Instant
  isActive : Bool
  deriving DecidableEq, Repr

/-- `key` is a one-to-one field, so it identifies the row. -/
instance : Keyed SSHCertificate Nat := ⟨SSHCertificate.key⟩

@[simp] theorem key_sshCertificate (c : SSHCertificate) : Keyed.key c = c.key := rfl

/-- The columns `revoke` and the bulk revocations write. -/
def revokedKey (now : Instant) : Table.Edit SSHKey where
  apply k := { k with isActive := false, revokedAt := some now }
  key_apply _ := rfl

def revokedCertificate (now : Instant) : Table.Edit SSHCertificate where
  apply c := { c with isActive := false, revokedAt := some now }
  key_apply _ := rfl

structure Server where
  id : ServerId
  displayName : List Char
  hostname : Option (List Char)
  ipv4 : Option (List Char)
  ipv6 : Option (List Char)
  agentEnrolledAt : Option Instant
  agentCertFingerprint : Option (List Char)
  agentCertSerial : Option (List Char)
  deriving DecidableEq, Repr

instance : Keyed Server Nat := ⟨Server.id⟩

structure ServerAccount where
  server : ServerId
  user : UserId
  systemUsername : List Char
  isPresent : Bool
  lastSyncedAt : Instant
  deriving DecidableEq, Repr

/-- `unique_server_account`. -/
instance : Keyed ServerAccount (ServerId × UserId) := ⟨fun a => (a.server, a.user)⟩

@[simp] theorem key_serverAccount (a : ServerAccount) : Keyed.key a = (a.server, a.user) := rfl

structure Db where
  users : Table User := .empty
  userObjectPermissions : Finset UserObjectPermission := ∅
  accessRequests : Table AccessRequest := .empty
  erasureRequests : Table ErasureRequest := .empty
  sshKeys : Table SSHKey := .empty
  certificateAuthorities : Table SSHCertificateAuthority := .empty
  sshCertificates : Table SSHCertificate := .empty
  servers : Table Server := .empty
  serverAccounts : Table ServerAccount := .empty

/-- A user by an id from a payload, which may be negative. -/
def findUser (userId : Int) (db : Db) : Option User :=
  if userId < 0 then none else db.users.find userId.toNat

theorem findUser_eq_some {i : Int} {db : Db} {user : User} (h : findUser i db = some user) :
    user ∈ db.users ∧ (user.id : Int) = i := by
  unfold findUser at h
  split at h
  · cases h
  · next hi =>
    obtain ⟨hmem, hid⟩ := (Table.find_eq_some _ _ _).mp h
    have hid : user.id = i.toNat := hid
    exact ⟨hmem, by rw [hid]; exact Int.toNat_of_nonneg (Int.not_lt.mp hi)⟩

theorem findUser_natCast (u : UserId) (db : Db) : findUser u db = db.users.find u := by
  simp [findUser]

def assignPerm (p : UserObjectPermission) (db : Db) : Db :=
  { db with userObjectPermissions := insert p db.userObjectPermissions }

def removePerm (p : UserObjectPermission) (db : Db) : Db :=
  { db with userObjectPermissions := db.userObjectPermissions.erase p }

/-- The user holds `servers.view_server` on the server as an object permission. -/
def HoldsView (db : Db) (u : UserId) (s : ServerId) : Prop :=
  ⟨u, .viewServer, s⟩ ∈ db.userObjectPermissions

instance (db : Db) (u : UserId) (s : ServerId) : Decidable (HoldsView db u s) :=
  inferInstanceAs (Decidable (_ ∈ _))

@[simp] theorem assignPerm_accessRequests (p : UserObjectPermission) (db : Db) :
    (assignPerm p db).accessRequests = db.accessRequests := rfl
@[simp] theorem removePerm_accessRequests (p : UserObjectPermission) (db : Db) :
    (removePerm p db).accessRequests = db.accessRequests := rfl
@[simp] theorem mem_assignPerm (p q : UserObjectPermission) (db : Db) :
    q ∈ (assignPerm p db).userObjectPermissions ↔ q = p ∨ q ∈ db.userObjectPermissions := by
  simp [assignPerm]
@[simp] theorem mem_removePerm (p q : UserObjectPermission) (db : Db) :
    q ∈ (removePerm p db).userObjectPermissions ↔ q ≠ p ∧ q ∈ db.userObjectPermissions := by
  simp [removePerm]

end Keywarden
