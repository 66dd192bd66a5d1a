import Keywarden.Enrollment
import Keywarden.HostName
import Keywarden.IpAddress

/-!
# What agents write about their servers

`heartbeat` of the agent API beside `enroll_agent`: the same host name and addresses, stripped
and checked the same way, are written on the row of a server that is there. The name that a
row is shown by is not checked, nor is the time of a ping from above.
-/
namespace Keywarden.Heartbeat

open Rows Text Keys Enrollment

/-- `Server` with the columns that heartbeats write. -/
structure ServerRow extends Server where
  lastHeartbeatAt : Option Instant := none
  lastPingMs : Option Int := none
  deriving DecidableEq, Repr

instance : Keyed ServerRow Nat := ⟨fun s => s.id⟩

structure AgentHeartbeatIn where
  host : Option (List Char)
  ipv4 : Option (List Char)
  ipv6 : Option (List Char)
  pingMs : Option Int
  deriving DecidableEq, Repr

/-- The dictionary `updates`. -/
structure Updates where
  hostname : Option (List Char)
  ipv4 : Option (List Char)
  ipv6 : Option (List Char)
  lastHeartbeatAt : Instant
  lastPingMs : Option Int
  deriving DecidableEq, Repr

def updates (D : Deployment) (now : Instant) (server : ServerRow) (payload : AgentHeartbeatIn) :
    Updates where
  hostname := (hostnameOf (cleanHost payload.host)).filter fun host => server.hostname ≠ some host
  ipv4 := (normalizeIp D.isIpv4 payload.ipv4).filter fun ip => server.ipv4 ≠ some ip
  ipv6 := (normalizeIp D.isIpv6 payload.ipv6).filter fun ip => server.ipv6 ≠ some ip
  lastHeartbeatAt := now
  lastPingMs := payload.pingMs.map (max 0)

/-- The row with the updates set on it. -/
def Updates.set (D : Deployment) (u : Updates) (s : ServerRow) : ServerRow :=
  { s with
    hostname := u.hostname.or s.hostname
    ipv4 := (u.ipv4.map D.inet).or s.ipv4
    ipv6 := (u.ipv6.map D.inet).or s.ipv6
    lastHeartbeatAt := some u.lastHeartbeatAt
    lastPingMs := u.lastPingMs.or s.lastPingMs }

/-- What the two handlers rely on outside: the columns for addresses take the addresses that
Django's validators pass, and a fingerprint of a certificate is SHA-256 in hexadecimal. -/
structure Platform (D : Deployment) where
  takes : List Char → Bool
  takes_ipv4 : ∀ ip, D.isIpv4 ip = true → takes ip = true
  takes_ipv6 : ∀ ip, D.isIpv6 ip = true → takes ip = true
  fingerprint_hex : ∀ cert, (D.fingerprint cert).length = 64 ∧
    ∀ c ∈ D.fingerprint cert, IpAddress.isHexDigit c = true

/-- A serial number of `x509.random_serial_number`. -/
structure Serial where
  value : Nat
  lt : value < 2 ^ 159

section
variable {D : Deployment} (platform : Platform D)

/-- `last_ping_ms` is a positive integer of 32 bits. -/
def pingFits (n : Int) : Bool := decide (0 ≤ n) && decide (n ≤ 2147483647)

/-- The updates fit their columns. -/
def updatesFit (u : Updates) : Bool :=
  u.hostname.all (fitsColumn 253) && u.ipv4.all platform.takes && u.ipv6.all platform.takes &&
    u.lastPingMs.all pingFits

def heartbeat (now : Instant) (serverId : Nat) (payload : AgentHeartbeatIn)
    (servers : Table ServerRow) : Except Raised Unit × Table ServerRow :=
  match servers.find serverId with
  | none => (.error (.http ⟨404, none, "Server not found"⟩), servers)
  | some server =>
    let u := updates D now server payload
    if !updatesFit platform u then (.error writeFailed, servers)
    else if servers.any fun other => other.id ≠ server.id &&
        clashes other.toServer (u.set D server).toServer then
      (.error (.http ⟨409, none, "Server address already in use"⟩), servers)
    else (.ok (), servers.save (u.set D server))

/-- The values of the row that is inserted fit their columns. -/
def draftFits (d : Draft) (server : Server) : Bool :=
  serverFits server && d.ipv4.all platform.takes && d.ipv6.all platform.takes

def certificateFits (s : Server) : Bool :=
  s.agentCertFingerprint.all (fitsColumn 128) && s.agentCertSerial.all (fitsColumn 64)

/-- `enroll_agent` on its own, with the row of the token; what fails inside the transaction
leaves nothing. -/
def enrollAgent (now : Instant) (serial : Serial) (authorities : List AgentCertificateAuthority)
    (payload : AgentEnrollIn) (token : EnrollmentToken) (servers : Table ServerRow) :
    Except Raised AgentEnrollOut × EnrollmentToken × Table ServerRow :=
  match validate D now token payload with
  | .error e => (.error e, token, servers)
  | .ok d =>
    let server := newServer D servers.fresh d
    if !draftFits platform d server then (.error writeFailed, token, servers)
    else if servers.any fun other => clashes other.toServer server then
      (.error (.http ⟨409, none, "Server already enrolled"⟩), token, servers)
    else match issueClientCert D authorities now serial.value d.csr d.host server.id with
      | .error e => (.error e, token, servers)
      | .ok (cert, caPem) =>
        let server := enrolled D now cert server
        if !certificateFits server then (.error writeFailed, token, servers)
        else (.ok ⟨str server.id, cert, caPem⟩, d.token.markUsed now server.id,
          servers.insert { server with })

end

/-! ## Host names -/

theorem hostLabel_iff {l : List Char} : hostLabel l = true ↔ HostName.Label l := by
  have hpos : l ≠ [] ↔ 1 ≤ l.length := by rw [← List.length_pos_iff]; exact Iff.rfl
  simp only [hostLabel, Bool.and_eq_true, decide_eq_true_eq, List.all_eq_true, hpos]
  exact ⟨fun ⟨⟨⟨⟨h₁, h₂⟩, h₃⟩, h₄⟩, h₅⟩ => ⟨h₁, h₂, h₃, h₄, h₅⟩,
    fun ⟨h₁, h₂, h₃, h₄, h₅⟩ => ⟨⟨⟨⟨h₁, h₂⟩, h₃⟩, h₄⟩, h₅⟩⟩

theorem hostLabels_eq (s : List Char) : hostLabels s = HostName.labelsOf s := rfl

/-- The validator passes the names, and the names with a newline behind them. -/
theorem validHostname_iff {s : List Char} : validHostname s = true ↔ HostName.Name (beforeEnd s) := by
  have hpos : beforeEnd s ≠ [] ↔ 1 ≤ (beforeEnd s).length := by
    rw [← List.length_pos_iff]
    exact Iff.rfl
  simp only [validHostname, Bool.and_eq_true, decide_eq_true_eq, List.all_eq_true, hostLabel_iff, hpos,
    hostLabels_eq]
  constructor
  · rintro ⟨⟨hne, hshort⟩, hlabels⟩
    obtain ⟨hnil, final, htext⟩ := HostName.exists_textOf (beforeEnd s)
    exact ⟨hne, hshort, _, final, hnil, hlabels, htext⟩
  · rintro ⟨hne, hshort, labels, final, hnil, hlabels, htext⟩
    refine ⟨⟨hne, hshort⟩, ?_⟩
    rw [htext, HostName.labelsOf_textOf hnil
      (fun l hl => ⟨(hlabels l hl).ne_nil, (hlabels l hl).not_mem_dot⟩)]
    exact hlabels

theorem beforeEnd_cases (s : List Char) : s = beforeEnd s ∨ s = beforeEnd s ++ ['\n'] := by
  unfold beforeEnd
  split
  · next h => exact .inr (List.dropLast_append_getLast? _ h).symm
  · exact .inl rfl

theorem beforeEnd_name {s : List Char} (h : HostName.Name s) : beforeEnd s = s := by
  refine if_neg fun hlast => ?_
  have hspace := h.not_isSpace '\n' (List.mem_of_getLast? hlast)
  exact absurd hspace (by decide)

theorem hostnameOf_eq_some {s n : List Char} :
    hostnameOf s = some n ↔ s = n ∧ HostName.Name (beforeEnd s) := by
  unfold hostnameOf
  by_cases hvalid : validHostname s = true
  · have hne : s ≠ [] := by
      rintro rfl
      cases hvalid
    rw [if_pos (by simp [hne, hvalid]), Option.some.injEq]
    exact ⟨fun h => ⟨h, validHostname_iff.mp hvalid⟩, fun h => h.1⟩
  · rw [if_neg (by simp [hvalid])]
    exact iff_of_false (by simp) fun h => hvalid (validHostname_iff.mpr h.2)

theorem cleanHost_name {h : List Char} (hname : HostName.Name h) : cleanHost (some h) = h := by
  rw [cleanHost, Option.getD_some, strip_of_forall hname.not_isSpace,
    List.take_of_length_le hname.short]

theorem hostnameOf_name {h : List Char} (hname : HostName.Name h) :
    hostnameOf (cleanHost (some h)) = some h := by
  rw [cleanHost_name hname, hostnameOf_eq_some, beforeEnd_name hname]
  exact ⟨rfl, hname⟩

/-- The host is cut right behind a newline that comes after a name. -/
def CutAtNewline (host : Option (List Char)) : Prop :=
  ∃ name, HostName.Name name ∧ cleanHost host = name ++ ['\n']

theorem name_of_hostnameOf {host : Option (List Char)} (hcut : ¬ CutAtNewline host) {n : List Char}
    (h : hostnameOf (cleanHost host) = some n) : HostName.Name n := by
  obtain ⟨rfl, hname⟩ := hostnameOf_eq_some.mp h
  obtain heq | heq := beforeEnd_cases (cleanHost host)
  · rw [heq]
    exact hname
  · exact absurd ⟨_, hname, heq⟩ hcut

/-- What a passed request works with. -/
theorem validate_draft {D : Deployment} {now : Instant} {token : EnrollmentToken}
    {payload : AgentEnrollIn} {d : Draft} (h : validate D now token payload = .ok d) :
    d.host = cleanHost payload.host ∧ d.hostname = hostnameOf (cleanHost payload.host) ∧
      d.ipv4 = normalizeIp D.isIpv4 payload.ipv4 ∧ d.ipv6 = normalizeIp D.isIpv6 payload.ipv6 := by
  simp only [validate] at h
  split at h
  · cases h
  split at h
  · cases h
  split at h
  · cases h
  split at h
  · cases h
  split at h
  · cases h
  · cases h
    exact ⟨rfl, rfl, rfl, rfl⟩

/-- What the two calls write of a host is a name, and a host that is a name is what they write. -/
structure WritesNames (D : Deployment) (host : Option (List Char)) : Prop where
  enrolled_valid : ∀ (now : Instant) (token : EnrollmentToken) (payload : AgentEnrollIn) (d : Draft)
    (id : ServerId), payload.host = host → validate D now token payload = .ok d →
      ∀ n ∈ (newServer D id d).hostname, HostName.Name n
  enrolled_kept : ∀ (now : Instant) (token : EnrollmentToken) (payload : AgentEnrollIn) (d : Draft)
    (id : ServerId), payload.host = host → validate D now token payload = .ok d →
      ∀ h ∈ host, HostName.Name h → (newServer D id d).hostname = some h
  reported_valid : ∀ (now : Instant) (server : ServerRow) (payload : AgentHeartbeatIn),
    payload.host = host → ∀ n ∈ (updates D now server payload).hostname, HostName.Name n
  reported_kept : ∀ (now : Instant) (server : ServerRow) (payload : AgentHeartbeatIn),
    payload.host = host → ∀ h ∈ host, HostName.Name h →
      (∀ n ∈ (updates D now server payload).hostname, n = h) ∧
        ((updates D now server payload).set D server).hostname = some h

def emptyServer : ServerRow where
  id := 1
  displayName := "server".toList
  hostname := none
  ipv4 := none
  ipv6 := none
  agentEnrolledAt := none
  agentCertFingerprint := none
  agentCertSerial := none

/-- For every host: the two calls write names, and those that they are given, if and only if the
host is not cut right behind a newline that comes after a name. -/
theorem writesNames_iff (D : Deployment) (host : Option (List Char)) :
    WritesNames D host ↔ ¬ CutAtNewline host := by
  constructor
  · rintro h ⟨name, hname, hcut⟩
    have hend : beforeEnd (name ++ ['\n']) = name := by
      rw [beforeEnd, if_pos (List.getLast?_concat ..), List.dropLast_concat]
    have hwritten : name ++ ['\n'] ∈ (updates D 0 emptyServer ⟨host, none, none, none⟩).hostname := by
      refine Option.mem_filter_iff.mpr ⟨?_, rfl⟩
      rw [Option.mem_def, hostnameOf_eq_some, hcut, hend]
      exact ⟨rfl, hname⟩
    have hbad := h.reported_valid 0 emptyServer ⟨host, none, none, none⟩ rfl _ hwritten
    exact absurd (hbad.not_isSpace '\n' (by simp)) (by decide)
  · intro hcut
    refine ⟨?_, ?_, ?_, ?_⟩
    · rintro now token payload d id rfl hvalid n hn
      obtain ⟨_, hhost, _⟩ := validate_draft hvalid
      exact name_of_hostnameOf hcut (hhost.symm.trans hn)
    · rintro now token payload d id rfl hvalid h hh hname
      obtain ⟨_, hhost, _⟩ := validate_draft hvalid
      rw [Option.mem_def.mp hh, hostnameOf_name hname] at hhost
      exact hhost
    · rintro now server payload rfl n hn
      exact name_of_hostnameOf hcut (Option.mem_filter_iff.mp hn).1
    · rintro now server payload rfl h hh hname
      have hof : hostnameOf (cleanHost payload.host) = some h := by
        rw [Option.mem_def.mp hh, hostnameOf_name hname]
      constructor
      · intro n hn
        have hn := (Option.mem_filter_iff.mp hn).1
        rw [hof] at hn
        exact (Option.some.inj hn).symm
      · simp only [updates, Updates.set, hof]
        by_cases hsame : server.hostname = some h
        · rw [hsame, Option.filter_some, if_neg (by simp), Option.none_or]
        · rw [Option.filter_some, if_pos (by simpa using hsame), Option.some_or]

/-- Addresses as Python reads them, certificates by their text. -/
def deployment : Deployment where
  isIpv4 s := (IpAddress.parseV4 s).isSome
  isIpv6 s := (IpAddress.parseV6 s).isSome
  inet s := ((IpAddress.parse s).map IpAddress.Address.str).getD s
  loadPemCsr pem := some ⟨true, [], pem⟩
  loadPemCertificate := some
  loadPemPrivateKey _ := true
  fingerprint _ := List.replicate 64 '0'
  certValidityDays := 90

def longLabel : List Char := List.replicate 62 'a'

/-- A name of 252 characters with a newline and more behind it. -/
def brokenHost : List Char :=
  ['.'].intercalate (List.replicate 4 longLabel) ++ ".\nx".toList

/-- The cut leaves the newline, and the validator lets it pass. -/
theorem newline_stored : ¬ ∀ (D : Deployment) (host : Option (List Char)), WritesNames D host := by
  intro h
  have hwritten : (updates deployment 0 emptyServer ⟨some brokenHost, none, none, none⟩).hostname =
      some (brokenHost.take 253) := by decide +kernel
  have hname := (h deployment (some brokenHost)).reported_valid 0 emptyServer
    ⟨some brokenHost, none, none, none⟩ rfl _ hwritten
  exact absurd (hname.not_isSpace '\n' (by decide +kernel)) (by decide)

/-! ## What the columns take -/

theorem fitsColumn_iff {n : Nat} {s : List Char} :
    fitsColumn n s = true ↔ s.length ≤ n ∧ '\x00' ∉ s := by
  simp [fitsColumn]

theorem fitsColumn_hex {n : Nat} {s : List Char} (hlen : s.length ≤ n)
    (hs : ∀ c ∈ s, IpAddress.isHexDigit c = true) : fitsColumn n s = true :=
  fitsColumn_iff.mpr ⟨hlen, fun hm => absurd (hs _ hm) (by decide)⟩

theorem hostname_fits (host : Option (List Char)) :
    (hostnameOf (cleanHost host)).all (fitsColumn 253) = true := by
  rw [Option.all_eq_true]
  intro n hn
  obtain ⟨rfl, hname⟩ := hostnameOf_eq_some.mp hn
  refine fitsColumn_iff.mpr ⟨List.length_take_le _ _, fun hm => ?_⟩
  obtain heq | heq := beforeEnd_cases (cleanHost host)
  · rw [heq] at hm
    obtain hc | hc := hname.mem hm
    · exact absurd hc (by decide)
    · exact absurd hc (by decide)
  · rw [heq] at hm
    obtain hm | hm := List.mem_append.mp hm
    · obtain hc | hc := hname.mem hm
      · exact absurd hc (by decide)
      · exact absurd hc (by decide)
    · exact absurd (List.mem_singleton.mp hm) (by decide)

theorem all_filter_of_all {α : Type} {p q : α → Bool} {o : Option α} (h : o.all p = true) :
    (o.filter q).all p = true := by
  rw [Option.all_eq_true] at h ⊢
  exact fun a ha => h a (Option.mem_filter_iff.mp ha).1

theorem normalizeIp_takes {valid takes : List Char → Bool} (h : ∀ ip, valid ip = true → takes ip = true)
    (value : Option (List Char)) : (normalizeIp valid value).all takes = true := by
  cases value with
  | none => rfl
  | some value =>
    rw [normalizeIp]
    split
    · next hvalid =>
      rw [Bool.and_eq_true] at hvalid
      exact h value hvalid.2
    · rfl

section
variable {D : Deployment} (platform : Platform D) (now : Instant)

/-- The host, stripped and cut, fits the column of the name that the row is shown by. -/
def Displayable (host : Option (List Char)) : Prop :=
  (cleanHost host).length ≤ 128 ∧ '\x00' ∉ cleanHost host

theorem fits_displayName (host : Option (List Char)) :
    fitsColumn 128 (displayName (cleanHost host)) = true ↔ Displayable host := by
  unfold displayName Displayable
  split
  · exact fitsColumn_iff
  · next h =>
    rw [ne_eq, Decidable.not_not] at h
    rw [h]
    exact iff_of_true (by decide) ⟨by decide, List.not_mem_nil⟩

theorem draftFits_iff {token : EnrollmentToken} {payload : AgentEnrollIn} {d : Draft} (id : ServerId)
    (h : validate D now token payload = .ok d) :
    draftFits platform d (newServer D id d) = true ↔ Displayable payload.host := by
  obtain ⟨hhost, hname, hipv4, hipv6⟩ := validate_draft h
  have h₁ : (newServer D id d).hostname.all (fitsColumn 253) = true := by
    rw [newServer, hname]
    exact hostname_fits payload.host
  have h₂ : d.ipv4.all platform.takes = true := by
    rw [hipv4]
    exact normalizeIp_takes platform.takes_ipv4 _
  have h₃ : d.ipv6.all platform.takes = true := by
    rw [hipv6]
    exact normalizeIp_takes platform.takes_ipv6 _
  have h₄ : (newServer D id d).displayName = displayName (cleanHost payload.host) := by
    rw [newServer, hhost]
  rw [draftFits, serverFits, h₁, h₂, h₃, h₄, Bool.and_true, Bool.and_true, Bool.and_true,
    fits_displayName]

theorem certificateFits_enrolled (platform : Platform D) (now : Instant) {cert : ClientCertificate}
    {serial : Serial} (hserial : cert.serial = serial.value) (s : Server) :
    certificateFits (enrolled D now cert s) = true := by
  obtain ⟨hlen, hhex⟩ := platform.fingerprint_hex cert
  have hdigits : ∀ c ∈ hex cert.serial, IpAddress.isHexDigit c = true :=
    List.all_eq_true.mp (IpAddress.hex_spec cert.serial).1
  have hshort : (hex cert.serial).length ≤ 64 := by
    rw [hex, Nat.length_toDigits_le_iff (by decide) (by decide), hserial]
    exact Nat.lt_trans serial.lt (by decide)
  simp only [certificateFits, enrolled, Option.all_some, Bool.and_eq_true]
  exact ⟨fitsColumn_hex (by omega) hhex, fitsColumn_hex hshort hdigits⟩

theorem updatesFit_iff (server : ServerRow) (payload : AgentHeartbeatIn) :
    updatesFit platform (updates D now server payload) = true ↔
      ∀ n ∈ payload.pingMs, n ≤ 2147483647 := by
  have h₁ := all_filter_of_all (q := fun host => server.hostname ≠ some host) (hostname_fits payload.host)
  have h₂ := all_filter_of_all (q := fun ip => server.ipv4 ≠ some ip)
    (normalizeIp_takes platform.takes_ipv4 payload.ipv4)
  have h₃ := all_filter_of_all (q := fun ip => server.ipv6 ≠ some ip)
    (normalizeIp_takes platform.takes_ipv6 payload.ipv6)
  simp only [updatesFit, updates, h₁, h₂, h₃, Bool.true_and, Option.all_map, Option.all_eq_true]
  refine forall₂_congr fun n _ => ?_
  simp only [pingFits, Bool.and_eq_true, decide_eq_true_eq]
  omega

/-! ## How the calls end -/

/-- Whatever error there is, it is the answer to a conflict. -/
def OnlyConflicts {α : Type} (r : Except Raised α) : Prop :=
  ∀ e, r = .error e → ∃ message, e = .http ⟨409, none, message⟩

theorem not_onlyConflicts {α : Type} : ¬ OnlyConflicts (.error writeFailed : Except Raised α) := by
  intro h
  obtain ⟨_, he⟩ := h _ rfl
  cases he

theorem onlyConflicts_conflict {α : Type} (message : String) :
    OnlyConflicts (.error (.http ⟨409, none, message⟩) : Except Raised α) := by
  intro e he
  cases he
  exact ⟨message, rfl⟩

theorem onlyConflicts_ok {α : Type} (a : α) : OnlyConflicts (.ok a : Except Raised α) := by
  intro e he
  cases he

theorem issueClientCert_ok {authorities : List AgentCertificateAuthority} {ca : List Char × List Char}
    (h : loadAgentCa D authorities = .ok ca) (serial : Nat) (csr : Csr) (host : List Char)
    (server : ServerId) : ∃ cert, issueClientCert D authorities now serial csr host server =
      .ok (cert, ca.2) ∧ cert.serial = serial := by
  rw [issueClientCert, h]
  exact ⟨_, rfl, rfl⟩

theorem enrollAgent_iff {token : EnrollmentToken} {payload : AgentEnrollIn} {d : Draft}
    {authorities : List AgentCertificateAuthority} {ca : List Char × List Char}
    (hvalid : validate D now token payload = .ok d) (hca : loadAgentCa D authorities = .ok ca)
    (serial : Serial) (servers : Table ServerRow) :
    OnlyConflicts (enrollAgent platform now serial authorities payload token servers).1 ↔
      Displayable payload.host := by
  rw [← draftFits_iff platform now servers.fresh hvalid]
  unfold enrollAgent
  rw [hvalid]
  simp only
  by_cases hfits : draftFits platform d (newServer D servers.fresh d) = true
  · refine iff_of_true ?_ hfits
    rw [if_neg (by simp [hfits])]
    split
    · exact onlyConflicts_conflict _
    · obtain ⟨cert, hissue, hserial⟩ := issueClientCert_ok now hca serial.value d.csr d.host
        (newServer D servers.fresh d).id
      rw [hissue]
      simp only [certificateFits_enrolled platform now hserial, Bool.not_true, Bool.false_eq_true, if_false]
      exact onlyConflicts_ok _
  · refine iff_of_false ?_ hfits
    rw [if_pos (by simpa using hfits)]
    exact not_onlyConflicts

theorem heartbeat_iff {servers : Table ServerRow} {serverId : Nat} {server : ServerRow}
    (hfound : servers.find serverId = some server) (payload : AgentHeartbeatIn) :
    OnlyConflicts (heartbeat platform now serverId payload servers).1 ↔
      ∀ n ∈ payload.pingMs, n ≤ 2147483647 := by
  rw [← updatesFit_iff platform now server payload]
  unfold heartbeat
  rw [hfound]
  simp only
  by_cases hfits : updatesFit platform (updates D now server payload) = true
  · refine iff_of_true ?_ hfits
    rw [if_neg (by simp [hfits])]
    split
    · exact onlyConflicts_conflict _
    · exact onlyConflicts_ok _
  · refine iff_of_false ?_ hfits
    rw [if_pos (by simpa using hfits)]
    exact not_onlyConflicts

/-- For a request that has passed its checks, with an authority in use, and for a report about a
server that there is: what is written fits and the call fails by a conflict only, if and only if
the host can be displayed, and the time of the ping is one of 32 bits. -/
theorem writes_fit_iff (platform : Platform D) :
    (∀ (now : Instant) (serial : Serial) (authorities : List AgentCertificateAuthority)
      (payload : AgentEnrollIn) (token : EnrollmentToken) (servers : Table ServerRow) (d : Draft)
      (ca : List Char × List Char), validate D now token payload = .ok d →
        loadAgentCa D authorities = .ok ca →
        ((draftFits platform d (newServer D servers.fresh d) = true ∧
          OnlyConflicts (enrollAgent platform now serial authorities payload token servers).1) ↔
            Displayable payload.host)) ∧
    (∀ (now : Instant) (serverId : Nat) (payload : AgentHeartbeatIn) (servers : Table ServerRow)
      (server : ServerRow), servers.find serverId = some server →
        ((updatesFit platform (updates D now server payload) = true ∧
          OnlyConflicts (heartbeat platform now serverId payload servers).1) ↔
            ∀ n ∈ payload.pingMs, n ≤ 2147483647)) := by
  constructor
  · intro now serial authorities payload token servers d ca hvalid hca
    rw [draftFits_iff platform now _ hvalid, enrollAgent_iff platform now hvalid hca, and_self]
  · intro now serverId payload servers server hfound
    rw [updatesFit_iff, heartbeat_iff platform now hfound, and_self]

end

/-- The addresses that Python reads. -/
def platform : Platform deployment where
  takes s := (IpAddress.parse s).isSome
  takes_ipv4 ip h := by
    obtain ⟨a, ha⟩ := Option.isSome_iff_exists.mp h
    simp [IpAddress.parse, ha]
  takes_ipv6 ip h := by
    obtain ⟨a, ha⟩ := Option.isSome_iff_exists.mp h
    rw [IpAddress.parse]
    split
    · rfl
    · rw [ha]
      rfl
  fingerprint_hex _ := by
    refine ⟨List.length_replicate, fun c hc => ?_⟩
    rw [List.eq_of_mem_replicate hc]
    decide

def oneServer : Table ServerRow := Table.empty.insert emptyServer

def enrollment (host : String) : AgentEnrollIn where
  token := "one-time".toList
  csrPem := "request".toList
  host := some host.toList
  ipv4 := none
  ipv6 := none

def oneTime : EnrollmentToken := ⟨"one-time".toList, none, none, none⟩

def enrollmentDraft : Draft where
  token := oneTime
  host := "web-1".toList
  hostname := some "web-1".toList
  ipv4 := none
  ipv6 := none
  csr := ⟨true, [], "request".toList⟩

/-- An ordinary enrollment and an ordinary report. -/
theorem web_fits : OnlyConflicts (enrollAgent platform 0 ⟨1, by decide⟩
      [⟨"ca".toList, "key".toList, 0, none, true⟩] (enrollment "web-1") oneTime .empty).1 ∧
    OnlyConflicts (heartbeat platform 0 1 ⟨some "web-1".toList, none, none, some 12⟩ oneServer).1 := by
  constructor
  · exact (((writes_fit_iff platform).1 _ _ _ _ _ _ enrollmentDraft ("ca".toList, "ca".toList)
      (by decide +kernel) (by decide +kernel)).mpr ⟨by decide +kernel, by decide +kernel⟩).2
  · exact (((writes_fit_iff platform).2 _ _ _ _ emptyServer (by decide +kernel)).mpr (by decide)).2

/-- A ping that took longer than 32 bits of milliseconds. -/
theorem ping_overflows : ¬ ∀ (D : Deployment) (platform : Platform D) (now : Instant) (serverId : Nat)
    (payload : AgentHeartbeatIn) (servers : Table ServerRow),
    (servers.find serverId).isSome = true →
      OnlyConflicts (heartbeat platform now serverId payload servers).1 := by
  intro h
  obtain ⟨message, he⟩ := h deployment platform 0 1 ⟨none, none, none, some 2147483648⟩ oneServer
    (by decide +kernel) writeFailed rfl
  cases he

end Keywarden.Heartbeat
