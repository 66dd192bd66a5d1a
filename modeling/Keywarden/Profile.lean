import Mathlib.Data.List.Sort
import Keywarden.Forms
import Keywarden.KeyRun

/-!
# The profile page

`profile` in `apps/accounts/views.py`: a user adds a key or asks to be erased. A
key is saved before its certificate is issued, and in no transaction, so it stays
when issuing fails.
-/
namespace Keywarden.Profile

open Rows Text Forms Keys KeyApi

/-- The form that was posted, by `form_type`. -/
inductive ProfileForm where
  | sshKey (name publicKey : List Char)
  | erasure (reason : List Char)
  deriving DecidableEq, Repr

inductive Page where
  | login
  | invalid (errors : List FormError)
  | profile
  deriving DecidableEq, Repr

def nameField : CharField := { name := "name", maxLength := some 128 }

def publicKeyField : CharField := { name := "public_key" }

def reasonField : CharField := { name := "reason", minLength := some 10, maxLength := some 2000 }

def keyFormError : Raised → FormError
  | .validation m => ⟨some "public_key", (Raised.validation m).text⟩
  | .integrity => ⟨some "public_key", "Key already exists."⟩
  | _ => ⟨none, "Certificate issuance failed."⟩

def addKey (env : Env) (caller : Caller) (name publicKey : List Char) : Call SSHCertificate :=
  fun db =>
    match setPublicKey env.sha256 publicKey (newKey env caller.id name) with
    | .error e => (.error e, db)
    | .ok key =>
      ((insertKey env key).bind fun key => issueCertificateForKey env key (some caller.id)) db

def postKey (env : Env) (caller : Caller) (name publicKey : List Char) (db : Db) : Page × Db :=
  match nameField.clean name, publicKeyField.clean publicKey with
  | .ok name, .ok publicKey =>
    if caller.hasPerm .addSshkey then
      match addKey env caller (strip isSpace name) (strip isSpace publicKey) db with
      | (.ok _, db) => (.profile, db)
      | (.error e, db) => (.invalid [keyFormError e], db)
    else (.invalid [⟨none, "You do not have permission to add SSH keys."⟩], db)
  | name, publicKey => (.invalid (errors name ++ errors publicKey), db)

/-- The request of the user that was made last. -/
def latestRequest (user : UserId) (db : Db) : Option ErasureRequest :=
  ((db.erasureRequests.filter fun e => e.user = user).insertionSort
    fun a b => b.requestedAt ≤ a.requestedAt).head?

def newErasureRequest (user : UserId) (reason : List Char) (now : Instant) (id : Nat) :
    ErasureRequest where
  id := id
  user := user
  reason := strip isSpace reason
  status := .pending
  requestedAt := now
  decidedAt := none
  decidedBy := none
  decisionReason := []
  processedAt := none
  processedBy := none

def postErasure (env : Env) (caller : Caller) (reason : List Char) (db : Db) : Page × Db :=
  match reasonField.clean reason with
  | .error es => (.invalid es, db)
  | .ok reason =>
    if (latestRequest caller.id db).any fun e => e.status = .pending then
      (.invalid [⟨none, "You already have a pending erasure request."⟩], db)
    else (.profile, { db with
      erasureRequests := db.erasureRequests.create (newErasureRequest caller.id reason env.now) })

def profile (env : Env) (caller : Caller) (form : ProfileForm) (db : Db) : Page × Db :=
  if !caller.isAuthenticated then (.login, db)
  else match form with
    | .sshKey name publicKey => postKey env caller name publicKey db
    | .erasure reason => postErasure env caller reason db

/-- Nothing happened, or a key of the user was saved, with a certificate or without. -/
def Added (user : UserId) (db db' : Db) : Prop :=
  db' = db ∨
  ∃ (key : SSHKey) (p : Finset UserObjectPermission) (t : Table SSHCertificateAuthority),
    key.user = user ∧
    (db' = { db with
      userObjectPermissions := p
      certificateAuthorities := t
      sshKeys := db.sshKeys.create fun id => { key with id := id } } ∨
    ∃ cert : SSHCertificate, cert.user = user ∧ db' = { db with
      userObjectPermissions := p
      certificateAuthorities := t
      sshKeys := db.sshKeys.create fun id => { key with id := id }
      sshCertificates := db.sshCertificates.upsert cert })

theorem addKey_added (env : Env) (caller : Caller) (name publicKey : List Char) (db : Db) :
    Added caller.id db (addKey env caller name publicKey db).2 := by
  unfold addKey
  split
  · exact .inl rfl
  · next key hset =>
    obtain ⟨huser, _, _⟩ := KeyRun.setPublicKey_ok hset
    simp only [Call.bind, insertKey]
    by_cases hfit : (env.writes .key && keyFits key) = true
    · by_cases hdup : (db.sshKeys.any fun o =>
          o.user = key.user && o.fingerprint = key.fingerprint) = true
      · simp [Added, hfit, hdup]
      · simp only [hfit, hdup, Bool.not_true, Bool.false_eq_true, if_false]
        obtain ⟨t, ⟨e, he⟩ | ⟨cert, _, hcert, _, _, he⟩⟩ := issueCertificateForKey_cases env
          { key with id := db.sshKeys.fresh } (some caller.id)
          (assignSshKeyPerms { key with id := db.sshKeys.fresh }
            { db with sshKeys := db.sshKeys.create fun id => { key with id := id } })
        · rw [he]
          exact .inr ⟨key, _, t, huser, .inl rfl⟩
        · rw [he]
          exact .inr ⟨key, _, t, huser, .inr ⟨cert, hcert.trans huser, rfl⟩⟩
    · simp [Added, hfit]

theorem postKey_added (env : Env) (caller : Caller) (name publicKey : List Char) (db : Db) :
    Added caller.id db (postKey env caller name publicKey db).2 := by
  unfold postKey
  split
  · next name' publicKey' _ _ =>
    have hadded := addKey_added env caller (strip isSpace name') (strip isSpace publicKey') db
    split
    · split
      · next heq =>
        rw [heq] at hadded
        exact hadded
      · next heq =>
        rw [heq] at hadded
        exact hadded
    · exact .inl rfl
  · exact .inl rfl

/-- An erasure request that is accepted holds between ten and two thousand characters. -/
theorem postErasure_reason {env : Env} {caller : Caller} {reason : List Char} {db : Db}
    (h : (postErasure env caller reason db).1 = .profile) :
    10 ≤ (strip isSpace reason).length ∧ (strip isSpace reason).length ≤ 2000 := by
  unfold postErasure at h
  split at h
  · cases h
  · next value hclean =>
    obtain ⟨rfl, hreq, hval⟩ := clean_ok hclean
    have hvalid := hval (hreq rfl)
    simp only [CharField.validate, reasonField, List.append_eq_nil_iff] at hvalid
    obtain ⟨⟨hmin, hmax⟩, _⟩ := hvalid
    constructor
    · by_contra hlt
      rw [if_pos (by omega)] at hmin
      cases hmin
    · by_contra hlt
      rw [if_pos (by omega)] at hmax
      cases hmax

theorem postErasure_frame (env : Env) (caller : Caller) (reason : List Char) (db : Db) :
    ∃ t, (postErasure env caller reason db).2 = { db with erasureRequests := t } := by
  unfold postErasure
  split
  · exact ⟨_, rfl⟩
  · split <;> exact ⟨_, rfl⟩

end Keywarden.Profile
