import Mathlib.Data.List.Sort
import Keywarden.Keys

/-!
# Enrollment of agents

`enroll_agent`: an agent hands in its one-time token with a certificate signing
request and gets a server row and a client certificate. What the handler computes
between its database statements; the statements themselves, which the requests of a
token take in turns, are the steps of the next module.
-/
namespace Keywarden.Enrollment

open Text Keys

structure EnrollmentToken where
  token : List Char
  expiresAt : Option Instant
  usedAt : Option Instant
  server : Option ServerId
  deriving DecidableEq

def EnrollmentToken.isValid (now : Instant) (t : EnrollmentToken) : Bool :=
  t.usedAt.isNone && match t.expiresAt with
    | none => true
    | some e => decide (now < e)

def EnrollmentToken.markUsed (now : Instant) (server : ServerId) (t : EnrollmentToken) :
    EnrollmentToken :=
  { t with usedAt := some now, server := some server }

theorem EnrollmentToken.usedAt_of_isValid {now : Instant} {t : EnrollmentToken}
    (h : t.isValid now = true) : t.usedAt = none := by
  simp only [EnrollmentToken.isValid, Bool.and_eq_true, Option.isNone_iff_eq_none] at h
  exact h.1

structure AgentEnrollIn where
  token : List Char
  csrPem : List Char
  host : Option (List Char)
  ipv4 : Option (List Char)
  ipv6 : Option (List Char)
  deriving DecidableEq

/-! ## Names and addresses -/

def labelCharacter (c : Char) : Bool := c.isAlphanum || c = '-'

/-- `(?!-)[A-Za-z0-9-]{1,63}(?<!-)`. -/
def hostLabel (l : List Char) : Bool :=
  l ≠ [] && decide (l.length ≤ 63) && l.all labelCharacter &&
    l.head? ≠ some '-' && l.getLast? ≠ some '-'

/-- What is left of the text before the place that `$` may match at: the end, or a
newline that ends the text. -/
def beforeEnd (s : List Char) : List Char := if s.getLast? = some '\n' then s.dropLast else s

/-- The labels of a name, the final dot taken away. -/
def hostLabels (s : List Char) : List (List Char) :=
  let labels := s.splitOnP (· = '.')
  if 1 < labels.length ∧ labels.getLast? = some [] then labels.dropLast else labels

/-- `hostname_validator` raises nothing. -/
def validHostname (s : List Char) : Bool :=
  let name := beforeEnd s
  name ≠ [] && decide (name.length ≤ 253) && (hostLabels name).all hostLabel

def cleanHost (host : Option (List Char)) : List Char := (strip isSpace (host.getD [])).take 253

def displayName (host : List Char) : List Char := if host ≠ [] then host else "server".toList

def hostnameOf (host : List Char) : Option (List Char) :=
  if host ≠ [] && validHostname host then some host else none

/-- `_normalize_ip`, the version given by the validator of Django that it calls. -/
def normalizeIp (valid : List Char → Bool) : Option (List Char) → Option (List Char)
  | some value => if value ≠ [] && valid value then some value else none
  | none => none

/-! ## Certificates of agents -/

structure Csr where
  isSignatureValid : Bool
  /-- The relative distinguished names, as text. -/
  subject : List Char
  publicKey : List Char
  deriving DecidableEq

structure AgentCertificateAuthority where
  certPem : List Char
  keyPem : List Char
  createdAt : Instant
  revokedAt : Option Instant
  isActive : Bool
  deriving DecidableEq

structure ClientCertificate where
  subject : List Char
  issuer : List Char
  publicKey : List Char
  serial : Nat
  notValidBefore : Instant
  notValidAfter : Instant
  /-- The DNS name of the subject alternative name. -/
  dnsName : Option (List Char)
  deriving DecidableEq

/-- What the handler gets from Django's validators, from PostgreSQL's `inet`, from
`cryptography` and from the settings. -/
structure Deployment where
  isIpv4 : List Char → Bool
  isIpv6 : List Char → Bool
  /-- The value of an `inet` column, as the database compares it. -/
  inet : List Char → List Char
  loadPemCsr : List Char → Option Csr
  /-- The subject of a certificate in PEM form. -/
  loadPemCertificate : List Char → Option (List Char)
  loadPemPrivateKey : List Char → Bool
  fingerprint : ClientCertificate → List Char
  certValidityDays : Nat

def loadCsr (D : Deployment) (csrPem : List Char) : Except Raised Csr :=
  match D.loadPemCsr csrPem with
  | none => .error (.http ⟨422, none, "Invalid CSR"⟩)
  | some csr =>
    if csr.isSignatureValid then .ok csr
    else .error (.http ⟨422, none, "Invalid CSR signature"⟩)

/-- The subject of the authority in use and its certificate. -/
def loadAgentCa (D : Deployment) (authorities : List AgentCertificateAuthority) :
    Except Raised (List Char × List Char) :=
  let active := authorities.filter fun ca => ca.isActive && ca.revokedAt.isNone
  match (active.insertionSort fun a b => b.createdAt ≤ a.createdAt).head? with
  | none => .error (.http ⟨500, none, "Agent CA not configured"⟩)
  | some ca =>
    match D.loadPemCertificate ca.certPem with
    | none => .error (.http ⟨500, none, "Invalid agent CA material"⟩)
    | some subject =>
      if D.loadPemPrivateKey ca.keyPem then .ok (subject, ca.certPem)
      else .error (.http ⟨500, none, "Invalid agent CA material"⟩)

/-- The certificate and the one of the authority. -/
def issueClientCert (D : Deployment) (authorities : List AgentCertificateAuthority) (now : Instant)
    (serial : Nat) (csr : Csr) (host : List Char) (server : ServerId) :
    Except Raised (ClientCertificate × List Char) :=
  match loadAgentCa D authorities with
  | .error e => .error e
  | .ok (issuer, caPem) => .ok ({
      subject :=
        if csr.subject = [] then "CN=keywarden-agent-".toList ++ str server else csr.subject
      issuer := issuer
      publicKey := csr.publicKey
      serial := serial
      notValidBefore := now - 300000000
      notValidAfter := now + D.certValidityDays * microsecondsPerDay
      dnsName := hostnameOf host }, caPem)

/-- `format(serial, "x")`. -/
def hex (n : Nat) : List Char := Nat.toDigits 16 n

structure AgentEnrollOut where
  serverId : List Char
  clientCert : ClientCertificate
  caCertPem : List Char
  deriving DecidableEq

/-! ## The handler up to its transaction -/

/-- The local variables of a request that has passed its checks. -/
structure Draft where
  token : EnrollmentToken
  host : List Char
  hostname : Option (List Char)
  ipv4 : Option (List Char)
  ipv6 : Option (List Char)
  csr : Csr
  deriving DecidableEq

/-- The token row is the one row the requests name. -/
def validate (D : Deployment) (now : Instant) (row : EnrollmentToken) (payload : AgentEnrollIn) :
    Except Raised Draft :=
  let tokenValue := strip isSpace payload.token
  if tokenValue = [] then .error (.http ⟨422, none, "Token required"⟩)
  else if tokenValue.contains '\x00' then .error (.error "ValueError")
  else if row.token ≠ tokenValue then .error (.http ⟨403, none, "Invalid token"⟩)
  else if !row.isValid now then .error (.http ⟨403, none, "Token expired or already used"⟩)
  else match loadCsr D (strip isSpace payload.csrPem) with
    | .error e => .error e
    | .ok csr => .ok {
        token := row
        host := cleanHost payload.host
        hostname := hostnameOf (cleanHost payload.host)
        ipv4 := normalizeIp D.isIpv4 payload.ipv4
        ipv6 := normalizeIp D.isIpv6 payload.ipv6
        csr := csr }

/-- A request passes only while the token has not been used. -/
theorem validate_ok {D : Deployment} {now : Instant} {row : EnrollmentToken}
    {payload : AgentEnrollIn} {d : Draft} (h : validate D now row payload = .ok d) :
    row.usedAt = none := by
  simp only [validate] at h
  by_cases hvalid : row.isValid now = true
  · exact EnrollmentToken.usedAt_of_isValid hvalid
  · simp only [hvalid, Bool.not_false, if_true] at h
    split at h
    · cases h
    · split at h
      · cases h
      · split at h <;> cases h

/-- The row that `Server.objects.create` inserts. -/
def newServer (D : Deployment) (id : ServerId) (d : Draft) : Server where
  id := id
  displayName := displayName d.host
  hostname := d.hostname
  ipv4 := d.ipv4.map D.inet
  ipv6 := d.ipv6.map D.inet
  agentEnrolledAt := none
  agentCertFingerprint := none
  agentCertSerial := none

def serverFits (s : Server) : Bool :=
  fitsColumn 128 s.displayName && s.hostname.all (fitsColumn 253)

/-- Two rows that cannot stand together: the same host name or the same address. -/
def clashes (s s' : Server) : Bool :=
  (s.hostname.isSome && s.hostname = s'.hostname) || (s.ipv4.isSome && s.ipv4 = s'.ipv4) ||
    (s.ipv6.isSome && s.ipv6 = s'.ipv6)

/-- `agent_enrolled_at`, the fingerprint and the serial of the certificate. -/
def enrolled (D : Deployment) (now : Instant) (cert : ClientCertificate) (s : Server) : Server :=
  { s with
    agentEnrolledAt := some now
    agentCertFingerprint := some (D.fingerprint cert)
    agentCertSerial := some (hex cert.serial) }

end Keywarden.Enrollment
