import Keywarden.Enrollment
import Keywarden.Transitions

/-!
# Concurrent enrollments with one token

The requests of one token, each advanced one database statement at a time. What a
transaction has written is in the stage of its request until the commit: the others
read committed rows (READ COMMITTED), and a statement that meets an uncommitted row of
another transaction, through the lock of the token row or through a unique index, waits.
-/
namespace Keywarden.EnrollmentRun

open Transitions Keys Enrollment

/-- How far a request is: nothing done, checks passed, and then inside its
transaction, after which statement. -/
inductive Stage where
  | start
  | validated (d : Draft)
  | inserted (d : Draft) (server : Server)
  /-- The token of the draft is from here on the row as it is written. -/
  | marked (d : Draft) (server : Server)
  | signed (d : Draft) (server : Server) (cert : ClientCertificate) (caPem : List Char)
  | saved (d : Draft) (server : Server) (cert : ClientCertificate) (caPem : List Char)
  | ended (response : Except Raised AgentEnrollOut)
  deriving DecidableEq

/-- The uncommitted server row of a request. -/
def Stage.pendingServer : Stage → Option Server
  | .inserted _ server | .marked _ server | .signed _ server _ _ | .saved _ server _ _ => some server
  | _ => none

/-- The uncommitted token row of a request, which holds the lock of the row. -/
def Stage.pendingToken : Stage → Option EnrollmentToken
  | .marked d _ | .signed d _ _ _ | .saved d _ _ _ => some d.token
  | _ => none

/-- The request has passed its checks and has not ended. -/
def Stage.isActive : Stage → Bool
  | .start | .ended _ => false
  | _ => true

variable {n : Nat}

/-- The committed rows, the sequence of the server keys, the requests, and the
certificates handed out. -/
structure World (n : Nat) where
  token : EnrollmentToken
  servers : List Server
  nextId : Nat
  stages : Fin n → Stage
  issued : List ClientCertificate

def World.setStage (w : World n) (i : Fin n) (s : Stage) : World n :=
  { w with stages := Function.update w.stages i s }

/-- The next statement of a request, with the clock and what else it reads from
outside; `abort` is any failure of the process or of the database. -/
inductive Event (n : Nat) where
  | read (i : Fin n) (now : Instant)
  | insertServer (i : Fin n)
  | saveToken (i : Fin n) (now : Instant)
  | sign (i : Fin n) (now : Instant) (serial : Nat) (authorities : List AgentCertificateAuthority)
  | saveServer (i : Fin n) (now : Instant)
  | commit (i : Fin n)
  | abort (i : Fin n)

def alreadyEnrolled : Raised := .http ⟨409, none, "Server already enrolled"⟩

variable (D : Deployment) (requests : Fin n → AgentEnrollIn)

def insertServer (i : Fin n) (d : Draft) (w : World n) : World n :=
  let server := newServer D w.nextId d
  if !serverFits server then w.setStage i (.ended (.error (.error "DataError")))
  else if w.servers.any (clashes server) then
    { w.setStage i (.ended (.error alreadyEnrolled)) with nextId := w.nextId + 1 }
  else if ∃ j, j ≠ i ∧ (w.stages j).pendingServer.any (clashes server) then w
  else { w.setStage i (.inserted d server) with nextId := w.nextId + 1 }

def step (w : World n) : Event n → World n
  | .read i now =>
    match w.stages i with
    | .start =>
      match validate D now w.token (requests i) with
      | .error e => w.setStage i (.ended (.error e))
      | .ok d => w.setStage i (.validated d)
    | _ => w
  | .insertServer i =>
    match w.stages i with
    | .validated d => insertServer D i d w
    | _ => w
  | .saveToken i now =>
    match w.stages i with
    | .inserted d server =>
      if ∃ j, j ≠ i ∧ (w.stages j).pendingToken.isSome then w
      else w.setStage i (.marked { d with token := d.token.markUsed now server.id } server)
    | _ => w
  | .sign i now serial authorities =>
    match w.stages i with
    | .marked d server =>
      match issueClientCert D authorities now serial d.csr d.host server.id with
      | .error e => w.setStage i (.ended (.error e))
      | .ok (cert, caPem) => w.setStage i (.signed d server cert caPem)
    | _ => w
  | .saveServer i now =>
    match w.stages i with
    | .signed d server cert caPem => w.setStage i (.saved d (enrolled D now cert server) cert caPem)
    | _ => w
  | .commit i =>
    match w.stages i with
    | .saved d server cert caPem =>
      { w.setStage i (.ended (.ok ⟨Text.str server.id, cert, caPem⟩)) with
        token := d.token
        servers := w.servers ++ [server]
        issued := w.issued ++ [cert] }
    | _ => w
  | .abort i =>
    match w.stages i with
    | .ended _ => w
    | _ => w.setStage i (.ended (.error writeFailed))

/-- One server at most besides the ones there were, and one certificate at most. -/
def SingleUse (existing : Nat) (w : World n) : Prop :=
  w.servers.length ≤ existing + 1 ∧ w.issued.length ≤ 1

/-- A request that commits commits while the token row is unused. -/
def CommitsUnused (w : World n) : Event n → Prop
  | .commit i => (∃ d server cert caPem, w.stages i = .saved d server cert caPem) →
      w.token.usedAt = none
  | _ => True

/-! ## What a statement can change -/

/-- Only the stage of one request changes: it is active only if it was, or if the
token is unused, and a token row it writes is a used one. -/
structure Local (w w' : World n) (i : Fin n) (s : Stage) : Prop where
  token : w'.token = w.token
  servers : w'.servers = w.servers
  issued : w'.issued = w.issued
  stages : w'.stages = Function.update w.stages i s
  active : s.isActive = true → (w.stages i).isActive = true ∨ w.token.usedAt = none
  marked : ∀ t, s.pendingToken = some t → t.usedAt.isSome ∨ (w.stages i).pendingToken = some t

theorem local_ended (w : World n) (i : Fin n) (r : Except Raised AgentEnrollOut) :
    Local w (w.setStage i (.ended r)) i (.ended r) where
  token := rfl
  servers := rfl
  issued := rfl
  stages := rfl
  active h := by cases h
  marked t h := by cases h

/-- A request that goes on inside its transaction with the token row it had. -/
theorem local_setStage {w : World n} {i : Fin n} {s : Stage} (ha : (w.stages i).isActive = true)
    (hm : ∀ t, s.pendingToken = some t → t.usedAt.isSome ∨ (w.stages i).pendingToken = some t) :
    Local w (w.setStage i s) i s where
  token := rfl
  servers := rfl
  issued := rfl
  stages := rfl
  active _ := .inl ha
  marked := hm

theorem insertServer_cases {w : World n} {i : Fin n} {d : Draft}
    (hs : w.stages i = .validated d) :
    insertServer D i d w = w ∨ ∃ s, Local w (insertServer D i d w) i s := by
  simp only [insertServer]
  split
  · exact .inr ⟨_, local_ended w i _⟩
  · split
    · obtain ⟨h₁, h₂, h₃, h₄, h₅, h₆⟩ := local_ended w i (.error alreadyEnrolled)
      exact .inr ⟨_, h₁, h₂, h₃, h₄, h₅, h₆⟩
    · split
      · exact .inl rfl
      · have hactive : (w.stages i).isActive = true := by rw [hs]; rfl
        obtain ⟨h₁, h₂, h₃, h₄, h₅, h₆⟩ :=
          local_setStage (s := .inserted d (newServer D w.nextId d)) hactive (fun t h => by cases h)
        exact .inr ⟨_, h₁, h₂, h₃, h₄, h₅, h₆⟩

/-- A statement waits, or changes the stage of its request alone, or is a commit. -/
theorem step_cases (w : World n) (e : Event n) :
    step D requests w e = w ∨ (∃ i s, Local w (step D requests w e) i s) ∨
    ∃ i d server cert caPem, e = .commit i ∧ w.stages i = .saved d server cert caPem ∧
      step D requests w e = { w.setStage i (.ended (.ok ⟨Text.str server.id, cert, caPem⟩)) with
        token := d.token
        servers := w.servers ++ [server]
        issued := w.issued ++ [cert] } := by
  cases e with
  | read i now =>
    simp only [step]
    split
    · split
      · exact .inr (.inl ⟨i, _, local_ended w i _⟩)
      · next d hd =>
        exact .inr (.inl ⟨i, .validated d, rfl, rfl, rfl, rfl, fun _ => .inr (validate_ok hd),
          fun t h => by cases h⟩)
    · exact .inl rfl
  | insertServer i =>
    simp only [step]
    split
    · next d hs =>
      obtain h | ⟨s, h⟩ := insertServer_cases D hs
      · exact .inl h
      · exact .inr (.inl ⟨i, s, h⟩)
    · exact .inl rfl
  | saveToken i now =>
    simp only [step]
    split
    · next d server hs =>
      split
      · exact .inl rfl
      · refine .inr (.inl ⟨i, _, local_setStage (by rw [hs]; rfl) fun t h => .inl ?_⟩)
        cases h
        rfl
    · exact .inl rfl
  | sign i now serial authorities =>
    simp only [step]
    split
    · next d server hs =>
      split
      · exact .inr (.inl ⟨i, _, local_ended w i _⟩)
      · exact .inr (.inl ⟨i, _, local_setStage (by rw [hs]; rfl) fun t h => .inr (by rw [hs]; exact h)⟩)
    · exact .inl rfl
  | saveServer i now =>
    simp only [step]
    split
    · next d server cert caPem hs =>
      exact .inr (.inl ⟨i, _, local_setStage (by rw [hs]; rfl) fun t h => .inr (by rw [hs]; exact h)⟩)
    · exact .inl rfl
  | commit i =>
    simp only [step]
    split
    · next d server cert caPem hs => exact .inr (.inr ⟨i, d, server, cert, caPem, rfl, hs, rfl⟩)
    · exact .inl rfl
  | abort i =>
    simp only [step]
    split
    · exact .inl rfl
    · exact .inr (.inl ⟨i, _, local_ended w i _⟩)

/-! ## Single use -/

/-- Every server beyond the ones there were comes with a certificate, and the token
is unused until the first of them; a request that is active when the token is used
has seen the other one commit. -/
structure Inv (existing : Nat) (w : World n) : Prop where
  servers : w.servers.length = existing + w.issued.length
  used : w.issued ≠ [] → w.token.usedAt.isSome
  active : ∀ i, (w.stages i).isActive = true → w.token.usedAt.isSome → w.issued ≠ []
  marked : ∀ i t, (w.stages i).pendingToken = some t → t.usedAt.isSome

theorem inv_local {existing : Nat} {w w' : World n} {i : Fin n} {s : Stage} (hI : Inv existing w)
    (h : Local w w' i s) : Inv existing w' where
  servers := by rw [h.servers, h.issued]; exact hI.servers
  used := by rw [h.issued, h.token]; exact hI.used
  active j hj hu := by
    rw [h.issued]
    rw [h.token] at hu
    rw [h.stages] at hj
    by_cases hji : j = i
    · rw [hji, Function.update_self] at hj
      obtain ha | hnone := h.active hj
      · exact hI.active i ha hu
      · rw [hnone] at hu
        cases hu
    · rw [Function.update_of_ne hji] at hj
      exact hI.active j hj hu
  marked j t ht := by
    rw [h.stages] at ht
    by_cases hji : j = i
    · rw [hji, Function.update_self] at ht
      exact (h.marked t ht).elim id (hI.marked i t)
    · rw [Function.update_of_ne hji] at ht
      exact hI.marked j t ht

theorem inv_step {existing : Nat} (w : World n) (e : Event n) (hI : Inv existing w) :
    Inv existing (step D requests w e) := by
  obtain h | ⟨i, s, h⟩ | ⟨i, d, server, cert, caPem, rfl, hs, h⟩ := step_cases D requests w e
  · rw [h]
    exact hI
  · exact inv_local hI h
  · have hused : d.token.usedAt.isSome := hI.marked i d.token (by rw [hs]; rfl)
    rw [h]
    constructor
    · simp only [List.length_append, List.length_singleton, hI.servers]
      omega
    · exact fun _ => hused
    · exact fun j _ _ => List.append_ne_nil_of_right_ne_nil _ (List.cons_ne_nil _ _)
    · intro j t ht
      simp only [World.setStage] at ht
      by_cases hji : j = i
      · rw [hji, Function.update_self] at ht
        cases ht
      · rw [Function.update_of_ne hji] at ht
        exact hI.marked j t ht

theorem singleUse_step_iff {existing : Nat} (w : World n) (e : Event n) (hI : Inv existing w)
    (hQ : SingleUse existing w) :
    SingleUse existing (step D requests w e) ↔ CommitsUnused w e := by
  have hsame : ∀ w' : World n, w'.servers = w.servers → w'.issued = w.issued →
      SingleUse existing w' := by
    intro w' h₁ h₂
    rw [SingleUse, h₁, h₂]
    exact hQ
  by_cases hc : ∃ i d server cert caPem, e = .commit i ∧ w.stages i = .saved d server cert caPem
  · obtain ⟨i, d, server, cert, caPem, rfl, hs⟩ := hc
    have hservers := hI.servers
    simp only [step, hs, CommitsUnused, SingleUse, List.length_append, List.length_singleton]
    constructor
    · rintro ⟨_, hissued⟩ _
      by_contra hne
      have hu : w.token.usedAt.isSome := Option.isSome_iff_ne_none.mpr hne
      have hpos := List.length_pos_of_ne_nil (hI.active i (by rw [hs]; rfl) hu)
      omega
    · intro hunused
      have hnone : w.issued = [] := by
        by_contra hne
        have hu := hI.used hne
        rw [hunused ⟨d, server, cert, caPem, rfl⟩] at hu
        cases hu
      rw [hnone] at hservers ⊢
      simp only [List.length_nil] at hservers ⊢
      omega
  · have hcond : CommitsUnused w e := by
      cases e with
      | commit i => exact fun ⟨d, server, cert, caPem, hs⟩ => absurd ⟨i, d, server, cert, caPem, rfl, hs⟩ hc
      | _ => trivial
    refine ⟨fun _ => hcond, fun _ => ?_⟩
    obtain h | ⟨i, s, h⟩ | ⟨i, d, server, cert, caPem, he, hs, _⟩ := step_cases D requests w e
    · rw [h]
      exact hQ
    · exact hsame _ h.servers h.issued
    · exact absurd ⟨i, d, server, cert, caPem, he, hs⟩ hc

/-- The requests of one token before any of them has run. -/
def initial (n : Nat) (token : EnrollmentToken) (servers : List Server) (nextId : Nat) : World n where
  token := token
  servers := servers
  nextId := nextId
  stages _ := .start
  issued := []

/-- In every run of the statements of any number of requests, one server at most is
created and one certificate at most is issued, if and only if no request commits
after another one has. -/
theorem singleUse_iff (token : EnrollmentToken) (servers : List Server) (nextId : Nat)
    (events : List (Event n)) :
    Always (step D requests) (SingleUse servers.length) (initial n token servers nextId) events ↔
      Along (step D requests) CommitsUnused (initial n token servers nextId) events := by
  refine always_iff_along (E := fun _ _ => True) (I := Inv servers.length) ?_ ?_ ?_ ?_ ?_
  · exact fun w e _ => inv_step D requests w e
  · exact fun w e _ hI hQ => singleUse_step_iff D requests w e hI hQ
  · exact along_of_mem _ fun _ _ => trivial
  · exact ⟨rfl, fun h => absurd rfl h, (fun _ h => by cases h), (fun _ _ h => by cases h)⟩
  · exact ⟨Nat.le_succ _, Nat.zero_le _⟩

/-! ## Two requests at once -/

/-- Certificates by their text, addresses as they stand. -/
def plain : Deployment where
  isIpv4 _ := false
  isIpv6 _ := false
  inet := id
  loadPemCsr pem := some ⟨true, [], pem⟩
  loadPemCertificate := some
  loadPemPrivateKey _ := true
  fingerprint cert := cert.publicKey
  certValidityDays := 90

def oneTime : EnrollmentToken := ⟨"one-time".toList, none, none, none⟩

def agentCa : AgentCertificateAuthority := ⟨"ca".toList, "key".toList, 0, none, true⟩

def twoAgents (i : Fin 2) : AgentEnrollIn :=
  let host := if i.val = 0 then "a".toList else "b".toList
  ⟨"one-time".toList, host, some host, none, none⟩

/-- The statements of a request after the check of its token. -/
def transaction (i : Fin 2) (now : Instant) : List (Event 2) :=
  [.insertServer i, .saveToken i now, .sign i now 1 [agentCa], .saveServer i now, .commit i]

/-- Both requests check the token before either of them marks it. -/
theorem token_used_twice :
    ¬ ∀ (n : Nat) (D : Deployment) (requests : Fin n → AgentEnrollIn) (token : EnrollmentToken)
      (servers : List Server) (nextId : Nat) (events : List (Event n)),
      Always (step D requests) (SingleUse servers.length) (initial n token servers nextId) events := by
  intro h
  let events : List (Event 2) :=
    [.read 0 10, .read 1 11] ++ transaction 0 12 ++ transaction 1 13
  have hlast : SingleUse 0 (run (step plain twoAgents) (initial 2 oneTime [] 1) events) :=
    (always_iff _ _ _ _).mp (h 2 plain twoAgents oneTime [] 1 events) events (List.prefix_refl events)
  have hservers : (run (step plain twoAgents) (initial 2 oneTime [] 1) events).servers.length = 2 := by
    decide
  have hone := hlast.1
  rw [hservers] at hone
  omega

end Keywarden.EnrollmentRun
