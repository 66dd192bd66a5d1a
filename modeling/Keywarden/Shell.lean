import Keywarden.Access
import Keywarden.ServerAccounts
import Keywarden.Transitions

/-!
# Shell sessions

`ShellConsumer`: a web socket that mints a short-lived certificate for its user
and runs `ssh` with it. The account name, which becomes the principal and the first
half of the destination, is the one the agent of the server last reported for the
user, and the rendered one only while there is no report.
-/
namespace Keywarden.Shell

open Rows Text Transitions Username Keys ServerAccounts

def userCanShell (caller : Caller) (server : ServerId) (now : Instant) (db : Db) : Bool :=
  caller.hasObjectPerm .shellServer server ||
    db.accessRequests.any fun r => Access.grants now caller.id server r && r.requestShell

/-- The name that `render_system_username` gives the user. -/
def rendered (cfg : Settings) (T : CaseTable) (user : User) : List Char :=
  renderSystemUsername T cfg.accountUsernameTemplate user.username user.id

def getSystemUsername (cfg : Settings) (T : CaseTable) (user : User) (server : Server) (db : Db) :
    List Char :=
  match db.serverAccounts.find (server.id, user.id) with
  | some account => account.systemUsername
  | none => rendered cfg T user

/-- `server.hostname or server.ipv4 or server.ipv6`. -/
def shellTarget (server : Server) : List Char :=
  let hostname := server.hostname.getD []
  let ipv4 := server.ipv4.getD []
  if hostname ≠ [] then hostname else if ipv4 ≠ [] then ipv4 else server.ipv6.getD []

def formatSshHost (host : List Char) : List Char :=
  if host.contains ':' && !(host.head? = some '[' && host.getLast? = some ']') then
    '[' :: host ++ [']']
  else host

/-- The user and the server of a connection that may have a shell, or the close code. -/
def authorize (caller : Caller) (serverId : Nat) (now : Instant) (db : Db) :
    Except Nat (User × Server) :=
  match if caller.isAuthenticated then db.users.find caller.id else none with
  | none => .error 4401
  | some user =>
    if serverId = 0 then .error 4400
    else match db.servers.find serverId with
      | none => .error 4404
      | some server =>
        if !caller.hasObjectPerm .viewServer server.id then .error 4404
        else if !userCanShell caller server.id now db then .error 4403
        else .ok (user, server)

def shellIdentity (user : User) (serial : Nat) : List Char :=
  "keywarden-shell-".toList ++ str user.id ++ '-' :: str serial

/-- `sessionKey` is the public key file of the fresh key pair, or the error. -/
def generateSessionKeypair (env : Env) (sessionKey : Except String (List Char)) (user : User)
    (principal : List Char) : Call SignedCertificate :=
  (getActiveCa env (some user.id)).bind fun ca db =>
    match sessionKey with
    | .error e => (.error (.error e), db)
    | .ok publicKey =>
      (signPublicKey env.signError {
        caPrivateKey := ca.privateKey
        caPublicKey := ca.publicKey
        publicKey := strip isSpace publicKey
        identity := shellIdentity user env.serial
        principal := principal
        serial := env.serial
        validityDays := 1
        comment := shellIdentity user env.serial
        validityOverride := some ('+' :: str env.cfg.shellCertValidityMinutes ++ ['m']) }, db)

/-- A certificate that was minted, for whom, and the destination `ssh` is given. -/
structure Session where
  user : User
  certificate : SignedCertificate
  destination : List Char
  deriving DecidableEq

/-- `connect` with `_start_ssh`; the code is the one the socket is closed with, and
1000 is the plain close after a failure to start. -/
def connect (env : Env) (sessionKey : Except String (List Char)) (caller : Caller) (serverId : Nat)
    (db : Db) : Except Nat Session × Db :=
  match authorize caller serverId env.now db with
  | .error code => (.error code, db)
  | .ok (user, server) =>
    let systemUsername := getSystemUsername env.cfg env.caseTable user server db
    let target := shellTarget server
    if systemUsername = [] ∨ target = [] then (.error 4400, db)
    else match generateSessionKeypair env sessionKey user systemUsername db with
      | (.error _, db) => (.error 1000, db)
      | (.ok certificate, db) =>
        (.ok ⟨user, certificate, systemUsername ++ '@' :: formatSshHost target⟩, db)

/-! ## Which sessions are minted -/

/-- Signing for the user works, whatever the principal. -/
def SignsFor (env : Env) (sessionKey : Except String (List Char)) (user : User) (db : Db) : Prop :=
  ∀ principal, ∃ cert db', generateSessionKeypair env sessionKey user principal db = (.ok cert, db')

theorem generateSessionKeypair_ok {env : Env} {sessionKey : Except String (List Char)} {user : User}
    {principal : List Char} {db db' : Db} {cert : SignedCertificate}
    (h : generateSessionKeypair env sessionKey user principal db = (.ok cert, db')) :
    cert.principals = principal ∧ SignsFor env sessionKey user db := by
  unfold generateSessionKeypair Call.bind at h
  split at h
  · cases h
  · next ca db₁ hca =>
    cases sessionKey with
    | error e => cases h
    | ok publicKey =>
      simp only [signPublicKey] at h
      by_cases hmat : ca.privateKey = [] ∨ ca.publicKey = []
      · rw [if_pos hmat] at h
        cases h
      · rw [if_neg hmat] at h
        cases hs : env.signError with
        | some e =>
          rw [hs] at h
          cases h
        | none =>
          rw [hs] at h
          cases h
          refine ⟨rfl, fun principal' => ?_⟩
          simp only [generateSessionKeypair, Call.bind, hca, signPublicKey, if_neg hmat, hs]
          exact ⟨_, _, rfl⟩

/-- The connection passes its checks, and the certificate can be signed. -/
structure Starts (env : Env) (sessionKey : Except String (List Char)) (caller : Caller)
    (serverId : Nat) (db : Db) (user : User) (server : Server) : Prop where
  authorized : authorize caller serverId env.now db = .ok (user, server)
  target : shellTarget server ≠ []
  signs : SignsFor env sessionKey user db

/-- A session is minted when the connection starts and the account name is not
empty, and then for that name. -/
theorem connect_cases (env : Env) (sessionKey : Except String (List Char)) (caller : Caller)
    (serverId : Nat) (db : Db) :
    ((∃ code, (connect env sessionKey caller serverId db).1 = .error code) ∧
      ∀ user server, Starts env sessionKey caller serverId db user server →
        getSystemUsername env.cfg env.caseTable user server db = []) ∨
    ∃ user server cert, Starts env sessionKey caller serverId db user server ∧
      cert.principals = getSystemUsername env.cfg env.caseTable user server db ∧
      getSystemUsername env.cfg env.caseTable user server db ≠ [] ∧
      (connect env sessionKey caller serverId db).1 = .ok ⟨user, cert,
        getSystemUsername env.cfg env.caseTable user server db ++
          '@' :: formatSshHost (shellTarget server)⟩ := by
  unfold connect
  cases ha : authorize caller serverId env.now db with
  | error code =>
    exact .inl ⟨⟨code, rfl⟩, fun user server hs => by simpa [ha] using hs.authorized⟩
  | ok p =>
    obtain ⟨user, server⟩ := p
    have hunique : ∀ user' server', Starts env sessionKey caller serverId db user' server' →
        user = user' ∧ server = server' := by
      intro user' server' hs
      simpa [ha] using hs.authorized
    simp only
    by_cases hempty : getSystemUsername env.cfg env.caseTable user server db = [] ∨
        shellTarget server = []
    · rw [if_pos hempty]
      refine .inl ⟨⟨4400, rfl⟩, fun user' server' hs => ?_⟩
      obtain ⟨rfl, rfl⟩ := hunique user' server' hs
      exact hempty.resolve_right hs.target
    · rw [if_neg hempty]
      obtain ⟨hname, htarget⟩ := not_or.mp hempty
      split
      · next e db' hgen =>
        refine .inl ⟨⟨1000, rfl⟩, fun user' server' hs => ?_⟩
        obtain ⟨rfl, rfl⟩ := hunique user' server' hs
        obtain ⟨cert, db'', hok⟩ :=
          hs.signs (getSystemUsername env.cfg env.caseTable user server db)
        rw [hok] at hgen
        cases hgen
      · next cert db' hgen =>
        obtain ⟨hp, hsigns⟩ := generateSessionKeypair_ok hgen
        exact .inr ⟨user, server, cert, ⟨ha, htarget, hsigns⟩, hp, hname, rfl⟩

/-! ## Runs of reports and connections -/

inductive Event where
  | syncReport : Instant → Nat → SyncReportIn → Event
  | connect : Env → Except String (List Char) → Caller → Nat → Event

/-- The database, and the sessions minted so far. -/
structure World where
  db : Db
  minted : List Session

variable (cfg : Settings) (T : CaseTable)

/-- A connection finds the settings of the deployment. -/
def step (w : World) : Event → World
  | .syncReport now serverId payload => { w with db := (syncReport now serverId payload w.db).2 }
  | .connect env sessionKey caller serverId =>
    let env := { env with cfg := cfg, caseTable := T }
    match connect env sessionKey caller serverId w.db with
    | (.error _, db) => { w with db := db }
    | (.ok session, db) => ⟨db, w.minted ++ [session]⟩

/-- The principal is one name, the rendered one, and the destination is no option. -/
def Proper (s : Session) : Prop :=
  s.certificate.principals = rendered cfg T s.user ∧ ',' ∉ s.certificate.principals ∧
    s.destination.head? ≠ some '-'

def AllProper (w : World) : Prop := ∀ s ∈ w.minted, Proper cfg T s

/-- What the agent last reported for the user of a starting connection is the
rendered name, or empty, which ends the connection. -/
def ReportedAsRendered (w : World) : Event → Prop
  | .syncReport _ _ _ => True
  | .connect env sessionKey caller serverId =>
    ∀ user server,
      Starts { env with cfg := cfg, caseTable := T } sessionKey caller serverId w.db user server →
      ∀ account, w.db.serverAccounts.find (server.id, user.id) = some account →
        account.systemUsername = [] ∨ account.systemUsername = rendered cfg T user

theorem rendered_single (user : User) : SingleName (rendered cfg T user) :=
  renderSystemUsername_single _ _ _ _

/-- The name comes from one of two sources. -/
theorem getSystemUsername_rendered_iff (user : User) (server : Server) (db : Db)
    (hne : getSystemUsername cfg T user server db ≠ []) :
    getSystemUsername cfg T user server db = rendered cfg T user ↔
      ∀ account, db.serverAccounts.find (server.id, user.id) = some account →
        account.systemUsername = [] ∨ account.systemUsername = rendered cfg T user := by
  unfold getSystemUsername at hne ⊢
  cases hf : db.serverAccounts.find (server.id, user.id) with
  | none => simp
  | some account =>
    rw [hf] at hne
    simp only [Option.some.injEq, forall_eq'] at hne ⊢
    exact ⟨.inr, fun h => h.resolve_left hne⟩

theorem allProper_step_iff (w : World) (e : Event) (hw : AllProper cfg T w) :
    AllProper cfg T (step cfg T w e) ↔ ReportedAsRendered cfg T w e := by
  cases e with
  | syncReport now serverId payload => exact ⟨fun _ => trivial, fun _ => hw⟩
  | connect env sessionKey caller serverId =>
    simp only [step, ReportedAsRendered]
    obtain ⟨⟨code, herr⟩, hempty⟩ | ⟨user, server, cert, hs, hp, hne, hok⟩ :=
      connect_cases { env with cfg := cfg, caseTable := T } sessionKey caller serverId w.db
    · have hsame : AllProper cfg T (step cfg T w (.connect env sessionKey caller serverId)) := by
        simp only [step]
        split
        · exact hw
        · next heq =>
          rw [heq] at herr
          cases herr
      refine ⟨fun _ user server hs account hacc => ?_, fun _ => hsame⟩
      have hname := hempty user server hs
      simp only [getSystemUsername, hacc] at hname
      exact .inl hname
    · have hiff := getSystemUsername_rendered_iff cfg T user server w.db hne
      have hproper : Proper cfg T ⟨user, cert, getSystemUsername cfg T user server w.db ++
          '@' :: formatSshHost (shellTarget server)⟩ ↔
          getSystemUsername cfg T user server w.db = rendered cfg T user := by
        simp only [Proper, hp]
        constructor
        · exact fun h => h.1
        · intro h
          rw [h]
          exact ⟨rfl, (rendered_single cfg T user).no_comma,
            (rendered_single cfg T user).head_ne_dash _⟩
      split
      · next heq =>
        rw [heq] at hok
        cases hok
      · next session db' heq =>
        rw [heq] at hok
        cases hok
        constructor
        · intro h user' server' hs'
          have hboth := hs'.authorized
          rw [hs.authorized] at hboth
          cases hboth
          exact hiff.mp (hproper.mp (h _ (List.mem_append_right _ List.mem_cons_self)))
        · intro h s hsm
          obtain hsm | hsm := List.mem_append.mp hsm
          · exact hw s hsm
          · rw [List.mem_singleton.mp hsm]
            exact hproper.mpr (hiff.mpr (h user server hs))

/-- In every run of reports and connections, every certificate minted names the
rendered account alone and no destination reads as an option, if and only if each
connection that starts finds its user reported under the rendered name or not at
all. -/
theorem allProper_iff (db : Db) (events : List Event) :
    Always (step cfg T) (AllProper cfg T) ⟨db, []⟩ events ↔
      Along (step cfg T) (ReportedAsRendered cfg T) ⟨db, []⟩ events := by
  refine always_iff_along (E := fun _ _ => True) (I := fun _ => True) ?_ ?_ ?_ trivial ?_
  · exact fun _ _ _ _ => trivial
  · exact fun w e _ _ hw => allProper_step_iff cfg T w e hw
  · exact along_of_mem _ fun _ _ => trivial
  · exact fun s hs => absurd hs List.not_mem_nil

/-! ## A report that names an option -/

def shellDb : Db where
  users := Table.empty.insert alice
  servers := Table.empty.insert ⟨1, "db1".toList, some "db1".toList, none, none, none, none, none⟩

def shellCaller : Caller := ⟨1, true, [], [(.viewServer, 1), (.shellServer, 1)]⟩

set_option maxRecDepth 4000 in
/-- The agent of a server reports an option as the account of a user; the next
session is minted for it and starts `ssh` with it. -/
theorem reported_option_minted :
    ¬ ∀ (cfg : Settings) (T : CaseTable) (db : Db) (events : List Event),
      Always (step cfg T) (AllProper cfg T) ⟨db, []⟩ events := by
  intro h
  let events : List Event :=
    [.syncReport 900 1 ⟨[⟨1, "-oProxyCommand=id,x".toList, true⟩], true⟩,
      .connect workingEnv (.ok "ssh-ed25519 AAAA session".toList) shellCaller 1]
  have hlast : AllProper workingEnv.cfg .keep (run (step workingEnv.cfg .keep) ⟨shellDb, []⟩ events) :=
    (always_iff _ _ _ _).mp (h workingEnv.cfg .keep shellDb events) events (List.prefix_refl events)
  have hminted : (run (step workingEnv.cfg .keep) ⟨shellDb, []⟩ events).minted.map Session.destination =
      ["-oProxyCommand=id,x@db1".toList] := by decide
  obtain ⟨s, hs, hd⟩ := List.mem_map.mp (hminted ▸ List.mem_singleton_self _)
  obtain ⟨_, _, hdash⟩ := hlast s hs
  rw [hd] at hdash
  exact hdash (by decide)

end Keywarden.Shell
