import Mathlib.Data.List.Sort
import Keywarden.Models
import Keywarden.Text
import Keywarden.Username

/-!
# Keys and certificates

`apps/keys`: parsing a public key, the certificate authority in use, issuing and
revoking the certificate of a key. Nothing here opens a transaction, so a write
stays when a later step fails: a call returns what it raises or returns, and the
database it leaves behind either way.
-/
namespace Keywarden.Keys

open Rows Text Username

inductive Raised where
  | http : HttpError → Raised
  | validation : String → Raised
  | integrity : Raised
  | error : String → Raised
  deriving DecidableEq, Repr

/-- `str(exc)` of an exception. -/
def Raised.text : Raised → String
  | .http e => e.message
  | .validation m => "['" ++ m ++ "']"
  | .integrity => "IntegrityError"
  | .error m => m

/-- The tables an operation writes a row of. -/
inductive Write where
  | certificateAuthority | certificate | key
  deriving DecidableEq, Repr

/-- What a call gets from outside: settings, the clock, random numbers, what
`ssh-keygen` does, and which database writes go through. -/
structure Env where
  cfg : Settings
  caseTable : CaseTable
  sha256 : List Nat → List Nat
  certificateDigest : SignedCertificate → List Char
  now : Instant
  serial : Nat
  /-- The private and the public key file, or the text of the error. -/
  keygen : Except String (List Char × List Char)
  signError : Option String
  writes : Write → Bool

/-- A call: what it raises or returns, and the database it leaves. -/
abbrev Call (α : Type) := Db → Except Raised α × Db

variable {α β : Type}

def Call.map (f : α → β) (c : Call α) : Call β := fun db => ((c db).1.map f, (c db).2)

/-- `except Exception as exc: raise f(exc)`. -/
def Call.mapError (f : Raised → Raised) (c : Call α) : Call α :=
  fun db => ((c db).1.mapError f, (c db).2)

def Call.bind (c : Call α) (next : α → Call β) : Call β := fun db =>
  match c db with
  | (.error e, db) => (.error e, db)
  | (.ok a, db) => next a db

/-- `with transaction.atomic()`: the block is rolled back when it raises. -/
def Call.atomic (c : Call α) : Call α := fun db =>
  match c db with
  | (.error e, _) => (.error e, db)
  | (.ok a, db) => (.ok a, db)

@[simp] theorem Call.map_db (f : α → β) (c : Call α) (db : Db) : (c.map f db).2 = (c db).2 := rfl
@[simp] theorem Call.mapError_db (f : Raised → Raised) (c : Call α) (db : Db) :
    (c.mapError f db).2 = (c db).2 := rfl

/-- What the first of two calls returns is only passed on. -/
theorem Call.bind_map {γ : Type} (f : α → β) (c : Call α) (next : β → Call γ) :
    (c.map f).bind next = c.bind fun a => next (f a) := by
  funext db
  unfold Call.bind Call.map
  rcases c db with ⟨e | a, db'⟩
  · rfl
  · rfl

/-- Of two calls one after the other, the second may not take place. -/
theorem Call.bind_db (c : Call α) (next : α → Call β) (db : Db) :
    ((c.bind next) db).2 = (c db).2 ∨ ∃ a, ((c.bind next) db).2 = (next a (c db).2).2 := by
  unfold Call.bind
  split
  · next heq => exact .inl (by rw [heq])
  · next a db' heq => exact .inr ⟨a, by rw [heq]⟩

/-- A call of two parts that returns. -/
theorem Call.bind_ok {c : Call α} {next : α → Call β} {db db' : Db} {b : β}
    (h : (c.bind next) db = (.ok b, db')) : ∃ a db₁, c db = (.ok a, db₁) ∧ next a db₁ = (.ok b, db') := by
  unfold Call.bind at h
  split at h
  · cases h
  · next a db₁ heq => exact ⟨a, db₁, heq, h⟩

theorem Call.map_ok {f : α → β} {c : Call α} {db db' : Db} {b : β}
    (h : (c.map f) db = (.ok b, db')) : ∃ a, c db = (.ok a, db') ∧ b = f a := by
  unfold Call.map at h
  rcases hc : c db with ⟨e | a, db₁⟩
  · rw [hc] at h
    cases h
  · rw [hc] at h
    cases h
    exact ⟨a, rfl, rfl⟩

theorem Call.mapError_ok {f : Raised → Raised} {c : Call α} {db db' : Db} {a : α}
    (h : (c.mapError f) db = (.ok a, db')) : c db = (.ok a, db') := by
  unfold Call.mapError at h
  rcases hc : c db with ⟨e | b, db₁⟩
  · rw [hc] at h
    cases h
  · rw [hc] at h
    cases h
    rfl

/-- Of two parts, either the first raises or the second does. -/
theorem Call.bind_error {c : Call α} {next : α → Call β} {db db' : Db} {e : Raised}
    (h : (c.bind next) db = (.error e, db')) :
    c db = (.error e, db') ∨ ∃ a db₁, c db = (.ok a, db₁) ∧ next a db₁ = (.error e, db') := by
  unfold Call.bind at h
  split at h
  · next heq =>
    cases h
    exact .inl heq
  · next a db₁ heq => exact .inr ⟨a, db₁, heq, h⟩

theorem Call.map_error {f : α → β} {c : Call α} {db db' : Db} {e : Raised}
    (h : (c.map f) db = (.error e, db')) : c db = (.error e, db') := by
  unfold Call.map at h
  rcases hc : c db with ⟨e' | a, db₁⟩
  · rw [hc] at h
    cases h
    rfl
  · rw [hc] at h
    cases h

theorem Call.mapError_error {f : Raised → Raised} {c : Call α} {db db' : Db} {e : Raised}
    (h : (c.mapError f) db = (.error e, db')) : ∃ e', c db = (.error e', db') ∧ e = f e' := by
  unfold Call.mapError at h
  rcases hc : c db with ⟨e' | a, db₁⟩
  · rw [hc] at h
    cases h
    exact ⟨e', rfl, rfl⟩
  · rw [hc] at h
    cases h

/-- A block that raises is rolled back. -/
theorem Call.atomic_error {c : Call α} {db db' : Db} {e : Raised}
    (h : c.atomic db = (.error e, db')) : db' = db := by
  unfold Call.atomic at h
  split at h
  · cases h
    rfl
  · cases h

theorem error_of_toBool {result : Except Raised α} (h : result.toBool = false) :
    ∃ e, result = .error e := by
  cases result with
  | error e => exact ⟨e, rfl⟩
  | ok a => cases h

def writeFailed : Raised := .error "DatabaseError"

/-! ## Public keys -/

def b64Alphabet : List Char :=
  "ABCDEFGHIJKLMNOPQRSTUVWXYZabcdefghijklmnopqrstuvwxyz0123456789+/".toList

def b64Value (c : Char) : Option Nat :=
  if c ∈ b64Alphabet then some (b64Alphabet.idxOf c) else none

def b64Digit (n : Nat) : Char := b64Alphabet.getD n 'A'

/-- The quanta of a text. Behind a whole one any number of `=` is taken and adds nothing. -/
def b64Quanta : List Char → Option (List Nat)
  | [] => some []
  | '=' :: rest => if rest.all (· = '=') then some [] else none
  | [a, b, '=', '='] => do
    let x ← b64Value a
    let y ← b64Value b
    return [x * 4 + y / 16]
  | [a, b, c, '='] => do
    let x ← b64Value a
    let y ← b64Value b
    let z ← b64Value c
    return [x * 4 + y / 16, y % 16 * 16 + z / 4]
  | a :: b :: c :: d :: rest => do
    let x ← b64Value a
    let y ← b64Value b
    let z ← b64Value c
    let w ← b64Value d
    let bytes ← b64Quanta rest
    return [x * 4 + y / 16, y % 16 * 16 + z / 4, z % 4 * 64 + w] ++ bytes
  | _ => none

/-- `base64.b64decode(text, validate=True)`. -/
def b64decode (text : List Char) : Option (List Nat) :=
  if text.head? = some '=' then none else b64Quanta text

/-- `base64.b64encode(bytes).rstrip("=")`. -/
def b64encode : List Nat → List Char
  | [] => []
  | [x] => [b64Digit (x / 4), b64Digit (x % 4 * 16)]
  | [x, y] => [b64Digit (x / 4), b64Digit (x % 4 * 16 + y / 16), b64Digit (y % 16 * 4)]
  | x :: y :: z :: rest =>
    b64Digit (x / 4) :: b64Digit (x % 4 * 16 + y / 16) :: b64Digit (y % 16 * 4 + z / 64) ::
      b64Digit (z % 64) :: b64encode rest

structure PublicKey where
  keyType : List Char
  keyB64 : List Char
  fingerprint : List Char
  deriving DecidableEq, Repr

def invalidKey : Raised := .validation "Invalid SSH public key format."

def parsePublicKey (sha256 : List Nat → List Nat) (publicKey : List Char) :
    Except Raised PublicKey :=
  match words publicKey with
  | keyType :: keyB64 :: _ =>
    match b64decode keyB64 with
    | some bytes => .ok ⟨keyType, keyB64, "SHA256:".toList ++ b64encode (sha256 bytes)⟩
    | none => .error invalidKey
  | _ => .error invalidKey

def setPublicKey (sha256 : List Nat → List Nat) (publicKey : List Char) (key : SSHKey) :
    Except Raised SSHKey :=
  match parsePublicKey sha256 publicKey with
  | .error e => .error e
  | .ok p => .ok { key with
      keyType := p.keyType
      fingerprint := p.fingerprint
      publicKey := p.keyType ++ ' ' :: p.keyB64 }

/-- A text that a column of `n` characters can hold. -/
def fitsColumn (n : Nat) (s : List Char) : Bool := decide (s.length ≤ n) && !s.contains '\x00'

def keyFits (k : SSHKey) : Bool :=
  fitsColumn 128 k.name && fitsColumn 32 k.keyType && fitsColumn 128 k.fingerprint &&
    !k.publicKey.contains '\x00'

/-! ## The certificate authority in use -/

/-- The most recent active authority. -/
def latestCa (db : Db) : Option SSHCertificateAuthority :=
  ((db.certificateAuthorities.filter fun ca => ca.isActive && ca.revokedAt.isNone).insertionSort
    fun a b => b.createdAt ≤ a.createdAt).head?

def newCa (env : Env) (createdBy : Option UserId) (id : Nat) : SSHCertificateAuthority where
  id := id
  name := "Keywarden User SSH CA".toList
  publicKey := []
  privateKey := []
  fingerprint := []
  createdAt := env.now
  revokedAt := none
  isActive := true
  createdBy := createdBy

def ensureMaterial (env : Env) (ca : SSHCertificateAuthority) :
    Except Raised SSHCertificateAuthority :=
  if ca.publicKey ≠ [] ∧ ca.privateKey ≠ [] then
    if ca.fingerprint = [] then
      match parsePublicKey env.sha256 ca.publicKey with
      | .error e => .error e
      | .ok p => .ok { ca with fingerprint := p.fingerprint }
    else .ok ca
  else match env.keygen with
    | .error e => .error (.error e)
    | .ok (privateKey, publicKey) =>
      match parsePublicKey env.sha256 (strip isSpace publicKey) with
      | .error e => .error e
      | .ok p => .ok { ca with
          privateKey := privateKey
          publicKey := strip isSpace publicKey
          fingerprint := p.fingerprint }

def getActiveCa (env : Env) (createdBy : Option UserId) : Call SSHCertificateAuthority := fun db =>
  let ca := (latestCa db).getD (newCa env createdBy db.certificateAuthorities.fresh)
  match ensureMaterial env ca with
  | .error e => (.error e, db)
  | .ok ca =>
    if env.writes .certificateAuthority then
      (.ok ca, { db with certificateAuthorities := db.certificateAuthorities.upsert ca })
    else (.error writeFailed, db)

/-! ## Certificates -/

/-- `_sanitize_label`: a run of other characters becomes one dash. -/
def labelChar (c : Char) : Bool := c.isAlphanum || c = '_' || c = '-'

def dashRuns : List Char → List Char
  | [] => []
  | c :: cs =>
    if labelChar c then c :: dashRuns cs
    else match cs with
      | [] => ['-']
      | d :: _ => if labelChar d then '-' :: dashRuns cs else dashRuns cs

def sanitizeLabel (value : List Char) : List Char :=
  let cleaned := strip isDash (dashRuns (strip isSpace value))
  if cleaned ≠ [] then cleaned.map Char.toLower else "key".toList

def ensureComment (publicKey comment : List Char) : List Char :=
  match words publicKey with
  | keyType :: keyB64 :: _ =>
    if comment = [] then keyType ++ ' ' :: keyB64 else keyType ++ ' ' :: keyB64 ++ ' ' :: comment
  | _ => strip isSpace publicKey

structure SignRequest where
  caPrivateKey : List Char
  caPublicKey : List Char
  publicKey : List Char
  identity : List Char
  principal : List Char
  serial : Nat
  validityDays : Nat
  comment : List Char
  validityOverride : Option (List Char) := none

def signPublicKey (signError : Option String) (r : SignRequest) :
    Except Raised SignedCertificate :=
  if r.caPrivateKey = [] ∨ r.caPublicKey = [] then .error (.error "CA material missing")
  else match signError with
    | some e => .error (.error e)
    | none => .ok {
        caPrivateKey := r.caPrivateKey
        caPublicKey := strip isSpace r.caPublicKey
        publicKeyLine := ensureComment r.publicKey r.comment
        identity := r.identity
        principals := r.principal
        validity := r.validityOverride.getD ('+' :: str r.validityDays ++ ['d'])
        serial := r.serial }

def microsecondsPerDay : Int := 86400000000

def identity (key : SSHKey) : List Char :=
  let name := if key.name ≠ [] then key.name else "key".toList
  "keywarden-cert-".toList ++ str key.user ++ '-' :: sanitizeLabel name ++ '-' :: str key.id

def certificateRow (env : Env) (key : SSHKey) (principal : List Char) (cert : SignedCertificate) :
    SSHCertificate where
  key := key.id
  user := key.user
  certificate := cert
  serial := env.serial
  principals := [principal]
  validAfter := env.now
  validBefore := env.now + env.cfg.userCertValidityDays * microsecondsPerDay
  revokedAt := none
  isActive := true

/-- The guard for a key without a user cannot fire: the column is NOT NULL. -/
def issueCertificateForKey (env : Env) (key : SSHKey) (createdBy : Option UserId) :
    Call SSHCertificate := fun db =>
  match getActiveCa env createdBy db with
  | (.error e, db) => (.error e, db)
  | (.ok ca, db) =>
    match db.users.find key.user with
    | none => (.error (.error "User matching query does not exist."), db)
    | some user =>
      let principal := renderSystemUsername env.caseTable env.cfg.accountUsernameTemplate
        user.username key.user
      let signed := signPublicKey env.signError {
        caPrivateKey := ca.privateKey
        caPublicKey := ca.publicKey
        publicKey := key.publicKey
        identity := identity key
        principal := principal
        serial := env.serial
        validityDays := env.cfg.userCertValidityDays
        comment := identity key }
      match signed with
      | .error e => (.error e, db)
      | .ok cert =>
        let row := certificateRow env key principal cert
        if env.writes .certificate then
          (.ok row, { db with sshCertificates := db.sshCertificates.upsert row })
        else (.error writeFailed, db)

def revokeCertificateForKey (env : Env) (key : SSHKey) : Call Unit := fun db =>
  match db.sshCertificates.find key.id with
  | none => (.ok (), db)
  | some _ =>
    if env.writes .certificate then
      (.ok (), { db with
        sshCertificates :=
          db.sshCertificates.update (fun c => c.key = key.id) (revokedCertificate env.now) })
    else (.error writeFailed, db)

/-! ## What a call can do to the database -/

theorem getActiveCa_frame (env : Env) (createdBy : Option UserId) (db : Db) :
    ∃ t, (getActiveCa env createdBy db).2 = { db with certificateAuthorities := t } := by
  unfold getActiveCa
  simp only
  split
  · exact ⟨_, rfl⟩
  · split <;> exact ⟨_, rfl⟩

theorem signPublicKey_ok {signError : Option String} {r : SignRequest} {cert : SignedCertificate}
    (h : signPublicKey signError r = .ok cert) :
    cert.principals = r.principal ∧ cert.caPrivateKey = r.caPrivateKey ∧
      cert.caPublicKey = strip isSpace r.caPublicKey ∧ r.caPublicKey ≠ [] ∧ r.caPrivateKey ≠ [] := by
  unfold signPublicKey at h
  split at h
  · cases h
  · next hmat =>
    split at h
    · cases h
    · cases h
      rw [not_or] at hmat
      exact ⟨rfl, rfl, rfl, hmat.2, hmat.1⟩

/-- What `ssh-keygen` has put into a certificate, of a request with material. -/
structure Signs (ca : SSHCertificateAuthority) (principal : List Char) (cert : SignedCertificate) :
    Prop where
  principals : cert.principals = principal
  privateKey : cert.caPrivateKey = ca.privateKey
  publicKey : cert.caPublicKey = strip isSpace ca.publicKey
  hasPublicKey : ca.publicKey ≠ []
  hasPrivateKey : ca.privateKey ≠ []

/-- Issuing either fails and touches authorities only, or puts the certificate that the
authority it got has signed in place. -/
theorem issueCertificateForKey_signed (env : Env) (key : SSHKey) (createdBy : Option UserId)
    (db : Db) :
    ∃ t, (getActiveCa env createdBy db).2 = { db with certificateAuthorities := t } ∧
      ((∃ e, issueCertificateForKey env key createdBy db =
          (.error e, { db with certificateAuthorities := t })) ∨
        ∃ ca user cert,
          getActiveCa env createdBy db = (.ok ca, { db with certificateAuthorities := t }) ∧
          db.users.find key.user = some user ∧
          Signs ca (renderSystemUsername env.caseTable env.cfg.accountUsernameTemplate user.username
            key.user) cert ∧
          issueCertificateForKey env key createdBy db =
            (.ok (certificateRow env key (renderSystemUsername env.caseTable
              env.cfg.accountUsernameTemplate user.username key.user) cert), { db with
                certificateAuthorities := t
                sshCertificates := db.sshCertificates.upsert (certificateRow env key
                  (renderSystemUsername env.caseTable env.cfg.accountUsernameTemplate user.username
                    key.user) cert) })) := by
  obtain ⟨t, ht⟩ := getActiveCa_frame env createdBy db
  refine ⟨t, ht, ?_⟩
  unfold issueCertificateForKey
  split
  · next e db' heq =>
    rw [heq] at ht
    exact .inl ⟨e, by rw [← ht]⟩
  · next ca db' heq =>
    rw [heq] at ht
    simp only at ht
    subst ht
    split
    · exact .inl ⟨_, rfl⟩
    · next user huser =>
      simp only
      split
      · exact .inl ⟨_, rfl⟩
      · next cert hsign =>
        obtain ⟨hprincipal, hpriv, hpub, hmatPub, hmatPriv⟩ := signPublicKey_ok hsign
        split
        · exact .inr ⟨ca, user, cert, heq, huser, ⟨hprincipal, hpriv, hpub, hmatPub, hmatPriv⟩, rfl⟩
        · exact .inl ⟨_, rfl⟩

/-- In other words, it puts one active certificate of the key and its user in place. -/
theorem issueCertificateForKey_cases (env : Env) (key : SSHKey) (createdBy : Option UserId)
    (db : Db) :
    ∃ t, (∃ e, issueCertificateForKey env key createdBy db =
        (.error e, { db with certificateAuthorities := t })) ∨
      ∃ cert : SSHCertificate, cert.key = key.id ∧ cert.user = key.user ∧ cert.isActive = true ∧
        (db.users.find key.user).isSome = true ∧
        issueCertificateForKey env key createdBy db =
          (.ok cert, { db with
            certificateAuthorities := t
            sshCertificates := db.sshCertificates.upsert cert }) := by
  obtain ⟨t, _, herror | ⟨ca, user, cert, _, huser, _, he⟩⟩ :=
    issueCertificateForKey_signed env key createdBy db
  · exact ⟨t, .inl herror⟩
  · exact ⟨t, .inr ⟨_, rfl, rfl, rfl, Option.isSome_iff_exists.mpr ⟨user, huser⟩, he⟩⟩

theorem issueCertificateForKey_sshKeys (env : Env) (key : SSHKey) (createdBy : Option UserId)
    (db : Db) : (issueCertificateForKey env key createdBy db).2.sshKeys = db.sshKeys := by
  obtain ⟨t, ⟨e, he⟩ | ⟨cert, _, _, _, _, he⟩⟩ := issueCertificateForKey_cases env key createdBy db
  · rw [he]
  · rw [he]

theorem revokeCertificateForKey_sshKeys (env : Env) (key : SSHKey) (db : Db) :
    (revokeCertificateForKey env key db).2.sshKeys = db.sshKeys := by
  unfold revokeCertificateForKey
  split
  · rfl
  · split
    · rfl
    · rfl

/-- An authority with key material can be had. -/
def AuthorityWorks (env : Env) (db : Db) : Prop :=
  ∀ createdBy, ∃ ca db', getActiveCa env createdBy db = (.ok ca, db') ∧
    ca.privateKey ≠ [] ∧ ca.publicKey ≠ []

/-- It can when the stored ones have material and `ssh-keygen` makes a key. -/
theorem authorityWorks_of {env : Env} {db : Db} {privateKey publicKey : List Char} {p : PublicKey}
    (hw : env.writes .certificateAuthority = true) (hgen : env.keygen = .ok (privateKey, publicKey))
    (hpriv : privateKey ≠ []) (hpub : strip isSpace publicKey ≠ [])
    (hparse : parsePublicKey env.sha256 (strip isSpace publicKey) = .ok p)
    (hdb : ∀ ca ∈ db.certificateAuthorities.toList,
      ca.publicKey ≠ [] ∧ ca.privateKey ≠ [] ∧ ca.fingerprint ≠ []) : AuthorityWorks env db := by
  intro createdBy
  unfold getActiveCa
  cases hl : latestCa db with
  | none =>
    simp only [Option.getD_none, ensureMaterial, newCa, ne_eq, not_true_eq_false, false_and, if_false,
      hgen, hparse, hw, if_true]
    exact ⟨_, _, rfl, hpriv, hpub⟩
  | some ca =>
    have hmem : ca ∈ db.certificateAuthorities :=
      ((Table.mem_filter _ _ _).mp (mem_of_first hl)).1
    obtain ⟨h₁, h₂, h₃⟩ := hdb ca hmem
    simp only [Option.getD_some, ensureMaterial, h₁, h₂, h₃, ne_eq, not_false_eq_true, and_self,
      if_true, if_false, hw]
    exact ⟨ca, _, rfl, h₂, h₁⟩

/-- Signing and the write of the certificate succeed. -/
structure SigningWorks (env : Env) (db : Db) : Prop where
  authority : AuthorityWorks env db
  sign : env.signError = none
  write : env.writes .certificate = true

theorem issueCertificateForKey_ok {env : Env} {key : SSHKey} {db : Db} (h : SigningWorks env db)
    (hu : (db.users.find key.user).isSome = true) (createdBy : Option UserId) :
    ∃ cert db', issueCertificateForKey env key createdBy db = (.ok cert, db') := by
  obtain ⟨ca, db', hca, hpriv, hpub⟩ := h.authority createdBy
  obtain ⟨t, ht⟩ := getActiveCa_frame env createdBy db
  rw [hca] at ht
  simp only at ht
  subst ht
  obtain ⟨user, hu⟩ := Option.isSome_iff_exists.mp hu
  unfold issueCertificateForKey
  simp only [hca, hu, signPublicKey, hpriv, hpub, or_self, if_false, h.sign, h.write, if_true]
  exact ⟨_, _, rfl⟩

/-- Who asks for the authority does not matter to what it can do. -/
theorem ensureMaterial_createdBy (env : Env) (ca : SSHCertificateAuthority)
    (createdBy : Option UserId) :
    ensureMaterial env { ca with createdBy := createdBy } =
      (ensureMaterial env ca).map fun ca => { ca with createdBy := createdBy } := by
  unfold ensureMaterial
  simp only
  split
  · split
    · cases parsePublicKey env.sha256 ca.publicKey <;> rfl
    · rfl
  · cases env.keygen with
    | error e => rfl
    | ok pair =>
      obtain ⟨privateKey, publicKey⟩ := pair
      simp only
      cases parsePublicKey env.sha256 (strip isSpace publicKey) <;> rfl

theorem getActiveCa_createdBy {env : Env} {createdBy createdBy' : Option UserId} {db db' : Db}
    {ca : SSHCertificateAuthority} (h : getActiveCa env createdBy db = (.ok ca, db')) :
    ∃ ca' db'', getActiveCa env createdBy' db = (.ok ca', db'') ∧ ca'.privateKey = ca.privateKey ∧
      ca'.publicKey = ca.publicKey := by
  unfold getActiveCa at h ⊢
  cases hl : latestCa db with
  | some stored =>
    rw [hl] at h
    simp only [Option.getD_some] at h ⊢
    exact ⟨ca, db', h, rfl, rfl⟩
  | none =>
    rw [hl] at h
    have hnew : newCa env createdBy' db.certificateAuthorities.fresh =
        { newCa env createdBy db.certificateAuthorities.fresh with createdBy := createdBy' } := rfl
    simp only [Option.getD_none] at h ⊢
    rw [hnew, ensureMaterial_createdBy]
    split at h
    · cases h
    · next made hmade =>
      rw [hmade]
      simp only [Except.map]
      split at h
      · next hw =>
        cases h
        rw [if_pos hw]
        exact ⟨_, _, rfl, rfl, rfl⟩
      · cases h

/-- Issuing succeeds exactly when there is an authority with material, the key has its
user, `ssh-keygen` signs and the certificate can be written. -/
theorem issueCertificateForKey_ok_iff (env : Env) (key : SSHKey) (createdBy : Option UserId)
    (db : Db) : (∃ cert db', issueCertificateForKey env key createdBy db = (.ok cert, db')) ↔
      SigningWorks env db ∧ (db.users.find key.user).isSome = true := by
  constructor
  · rintro ⟨cert, db', h⟩
    obtain ⟨t, _, ⟨e, he⟩ | ⟨ca, user, signed, hca, huser, hsigns, _⟩⟩ :=
      issueCertificateForKey_signed env key createdBy db
    · rw [he] at h
      cases h
    · refine ⟨⟨fun createdBy' => ?_, ?_, ?_⟩, by rw [huser]; rfl⟩
      · obtain ⟨ca', db'', hca', hpriv, hpub⟩ : ∃ ca' db'',
            getActiveCa env createdBy' db = (.ok ca', db'') ∧ ca'.privateKey = ca.privateKey ∧
              ca'.publicKey = ca.publicKey := getActiveCa_createdBy hca
        exact ⟨ca', db'', hca', by rw [hpriv]; exact hsigns.hasPrivateKey,
          by rw [hpub]; exact hsigns.hasPublicKey⟩
      · by_contra hsign
        obtain ⟨e, he⟩ := Option.ne_none_iff_exists'.mp hsign
        simp only [issueCertificateForKey, hca, huser, signPublicKey, he, hsigns.hasPrivateKey,
          hsigns.hasPublicKey, or_self, if_false] at h
        cases h
      · by_contra hw
        simp only [issueCertificateForKey, hca, huser] at h
        split at h
        · cases h
        · rw [if_neg hw] at h
          cases h
  · rintro ⟨hworks, huser⟩
    exact issueCertificateForKey_ok hworks huser createdBy

/-- Only the authorities matter. -/
theorem signingWorks_congr {env : Env} {db db' : Db}
    (h : db'.certificateAuthorities = db.certificateAuthorities) :
    SigningWorks env db' ↔ SigningWorks env db := by
  have hauthority : ∀ {a b : Db}, b.certificateAuthorities = a.certificateAuthorities →
      AuthorityWorks env a → AuthorityWorks env b := by
    intro a b heq hworks createdBy
    obtain ⟨ca, db'', hca, hmat⟩ := hworks createdBy
    unfold getActiveCa latestCa at hca ⊢
    rw [heq]
    simp only at hca ⊢
    split at hca
    · cases hca
    · next made hmade =>
      split at hca
      · next hw =>
        cases hca
        rw [if_pos hw]
        exact ⟨_, _, rfl, hmat⟩
      · cases hca
  exact ⟨fun hw => ⟨hauthority h.symm hw.authority, hw.sign, hw.write⟩,
    fun hw => ⟨hauthority h hw.authority, hw.sign, hw.write⟩⟩

theorem revokeCertificateForKey_cases (env : Env) (key : SSHKey) (db : Db)
    (hw : env.writes .certificate = true) :
    revokeCertificateForKey env key db = (.ok (), { db with
      sshCertificates :=
        db.sshCertificates.update (fun c => c.key = key.id) (revokedCertificate env.now) }) := by
  unfold revokeCertificateForKey
  split
  · next hf =>
    have hno := (Table.find_eq_none _ _).mp hf
    rw [Table.update_of_none _ _ fun c hc => by simpa using hno c hc]
  · rw [if_pos hw]

/-! ## A deployment in which everything works -/

def alice : User where
  id := 1
  username := "alice".toList
  email := "alice@example.org".toList
  firstName := []
  lastName := []
  password := none
  isActive := true
  isStaff := false
  isSuperuser := false
  lastLogin := none
  groups := {"user"}
  userPermissions := ∅

/-- The digest of the three zero bytes that every public key in it stands for. -/
def zerosDigest : List Nat :=
  [112, 158, 128, 200, 132, 135, 162, 65, 30, 30, 228, 223, 185, 242, 42, 134, 20, 146, 210, 12, 71,
    101, 21, 12, 12, 121, 74, 189, 112, 248, 20, 124]

def workingEnv : Env where
  cfg := ⟨id, Username.defaultTemplate, 30, 15⟩
  caseTable := .keep
  sha256 _ := zerosDigest
  certificateDigest _ := []
  now := 1000
  serial := 42
  keygen := .ok ("private".toList, "ssh-ed25519 AAAA keywarden".toList)
  signError := none
  writes _ := true

end Keywarden.Keys
