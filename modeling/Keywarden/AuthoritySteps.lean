import Mathlib.Logic.Function.Basic
import Keywarden.Keys
import Keywarden.Transitions

/-!
# The certificate authority one statement at a time

`get_active_ca` reads the authority in use or makes a new one, completes its key material
and writes the whole row, with nothing that keeps other calls or an administrator from
coming in between. Any number of calls may be under way.
-/
namespace Keywarden.AuthoritySteps

open Rows Keys Transitions

/-- A call between its statements; the flag says whether its copy is one of a stored row. A
new authority has no key before it is inserted. -/
inductive Task where
  | idle
  | read (ca : SSHCertificateAuthority) (stored : Bool)
  | ready (ca : SSHCertificateAuthority) (stored : Bool)
  | returned (ca : SSHCertificateAuthority)
  | failed (e : Raised)
  deriving DecidableEq

/-- `withdrawn` are the keys of the authorities that an administrator has deactivated or
revoked. -/
structure World where
  db : Db
  tasks : Nat → Task
  withdrawn : List Nat

inductive Event where
  | query (i : Nat) (env : Env) (createdBy : Option UserId)
  | ensureMaterial (i : Nat) (env : Env)
  | save (i : Nat) (works : Bool)
  | deactivate (id : Nat)
  | revoke (id : Nat) (now : Instant)

def inUse (ca : SSHCertificateAuthority) : Bool := ca.isActive && ca.revokedAt.isNone

def deactivated : Table.Edit SSHCertificateAuthority :=
  ⟨fun ca => { ca with isActive := false }, fun _ => rfl⟩

def revoked (now : Instant) : Table.Edit SSHCertificateAuthority :=
  ⟨fun ca => { ca with isActive := false, revokedAt := some now }, fun _ => rfl⟩

def World.setTask (w : World) (i : Nat) (task : Task) : World :=
  { w with tasks := Function.update w.tasks i task }

/-- `save()` of a copy: the row it leaves, and the database. -/
def saveCa (ca : SSHCertificateAuthority) (stored : Bool) (db : Db) : SSHCertificateAuthority × Db :=
  if stored then (ca, { db with certificateAuthorities := db.certificateAuthorities.upsert ca })
  else ({ ca with id := db.certificateAuthorities.fresh },
    { db with certificateAuthorities := db.certificateAuthorities.create fun id => { ca with id := id } })

def withdraw (w : World) (id : Nat) (e : Table.Edit SSHCertificateAuthority) : World :=
  match w.db.certificateAuthorities.find id with
  | none => w
  | some _ => { w with
      db := { w.db with
        certificateAuthorities := w.db.certificateAuthorities.update (fun ca => ca.id = id) e }
      withdrawn := id :: w.withdrawn }

/-- Every task carries out one call. -/
def step (w : World) : Event → World
  | .query i env createdBy =>
    match w.tasks i with
    | .idle =>
      match latestCa w.db with
      | some ca => w.setTask i (.read ca true)
      | none => w.setTask i (.read (newCa env createdBy 0) false)
    | _ => w
  | .ensureMaterial i env =>
    match w.tasks i with
    | .read ca stored =>
      match Keys.ensureMaterial env ca with
      | .error e => w.setTask i (.failed e)
      | .ok ca => w.setTask i (.ready ca stored)
    | _ => w
  | .save i works =>
    match w.tasks i with
    | .ready ca stored =>
      if works then
        let (row, db) := saveCa ca stored w.db
        { w with db := db }.setTask i (.returned row)
      else w.setTask i (.failed writeFailed)
    | _ => w
  | .deactivate id => withdraw w id deactivated
  | .revoke id now => withdraw w id (revoked now)

def start (db : Db) : World := ⟨db, fun _ => .idle, []⟩

/-! ## The authority in use -/

theorem latestCa_some {db : Db} {ca : SSHCertificateAuthority} (h : latestCa db = some ca) :
    ca ∈ db.certificateAuthorities ∧ inUse ca = true :=
  (Table.mem_filter _ _ _).mp (mem_of_first h)

theorem latestCa_none {db : Db} (h : latestCa db = none) :
    ∀ ca ∈ db.certificateAuthorities, inUse ca = false := by
  intro ca hca
  by_contra huse
  have hmem : ca ∈ db.certificateAuthorities.filter inUse :=
    (Table.mem_filter _ _ _).mpr ⟨hca, by simpa using huse⟩
  have hnil : db.certificateAuthorities.filter inUse = [] := eq_nil_of_first h
  rw [hnil] at hmem
  cases hmem

/-- The only authority in use is the latest. -/
theorem latestCa_only {db : Db} {ca : SSHCertificateAuthority} (hca : ca ∈ db.certificateAuthorities)
    (huse : inUse ca = true)
    (honly : ∀ r ∈ db.certificateAuthorities, inUse r = true → r = ca) : latestCa db = some ca := by
  refine first_of_forall_eq ((Table.mem_filter _ _ _).mpr ⟨hca, huse⟩) fun r hr => ?_
  obtain ⟨hr, hruse⟩ := (Table.mem_filter _ _ _).mp hr
  exact honly r hr hruse

/-- Key, name and state of the copy stay. -/
theorem ensureMaterial_kept {env : Env} {ca ca' : SSHCertificateAuthority}
    (h : Keys.ensureMaterial env ca = .ok ca') :
    ca'.id = ca.id ∧ ca'.isActive = ca.isActive ∧ ca'.revokedAt = ca.revokedAt := by
  unfold Keys.ensureMaterial at h
  split at h
  · split at h
    · split at h
      · cases h
      · cases h
        exact ⟨rfl, rfl, rfl⟩
    · cases h
      exact ⟨rfl, rfl, rfl⟩
  · split at h
    · cases h
    · split at h
      · cases h
      · cases h
        exact ⟨rfl, rfl, rfl⟩

theorem inUse_ensureMaterial {env : Env} {ca ca' : SSHCertificateAuthority}
    (h : Keys.ensureMaterial env ca = .ok ca') : inUse ca' = inUse ca := by
  obtain ⟨_, hactive, hrevoked⟩ := ensureMaterial_kept h
  rw [inUse, inUse, hactive, hrevoked]

/-- The key of the copy plays no part. -/
theorem ensureMaterial_id (env : Env) (ca : SSHCertificateAuthority) (id : Nat) :
    Keys.ensureMaterial env { ca with id := id } =
      (Keys.ensureMaterial env ca).map fun ca => { ca with id := id } := by
  unfold Keys.ensureMaterial
  simp only
  split
  · split
    · cases parsePublicKey env.sha256 ca.publicKey <;> rfl
    · rfl
  · cases env.keygen with
    | error e => rfl
    | ok files =>
      simp only
      cases parsePublicKey env.sha256 (Text.strip Text.isSpace files.2) <;> rfl

/-! ## A call alone -/

@[simp] theorem setTask_db (w : World) (i : Nat) (task : Task) : (w.setTask i task).db = w.db := rfl

@[simp] theorem setTask_withdrawn (w : World) (i : Nat) (task : Task) :
    (w.setTask i task).withdrawn = w.withdrawn := rfl

@[simp] theorem setTask_self (w : World) (i : Nat) (task : Task) : (w.setTask i task).tasks i = task := by
  simp only [World.setTask, Function.update_self]

theorem setTask_of_ne (w : World) {i j : Nat} (task : Task) (h : j ≠ i) :
    (w.setTask i task).tasks j = w.tasks j := by
  simp only [World.setTask, Function.update_of_ne h]

/-- How a call has ended. -/
def outcome : Except Raised SSHCertificateAuthority → Task
  | .ok ca => .returned ca
  | .error e => .failed e

/-- Undisturbed, the statements of a call are the call. -/
theorem alone (w : World) (i : Nat) (env : Env) (createdBy : Option UserId) (h : w.tasks i = .idle) :
    let w' := run step w [.query i env createdBy, .ensureMaterial i env,
      .save i (env.writes .certificateAuthority)]
    w'.db = (getActiveCa env createdBy w.db).2 ∧
      w'.tasks i = outcome (getActiveCa env createdBy w.db).1 := by
  simp only [run_cons, run_nil]
  cases hlatest : latestCa w.db with
  | some ca =>
    have hquery : step w (.query i env createdBy) = w.setTask i (.read ca true) := by
      simp only [step, h, hlatest]
    simp only [hquery, getActiveCa, hlatest, Option.getD_some]
    cases hensure : Keys.ensureMaterial env ca with
    | error e => simp only [step, setTask_self, hensure, setTask_db, outcome, and_self]
    | ok ca' =>
      simp only [step, setTask_self, hensure]
      cases env.writes .certificateAuthority with
      | false => simp only [Bool.false_eq_true, if_false, setTask_self, setTask_db, outcome, and_self]
      | true => simp only [if_true, saveCa, setTask_self, setTask_db, outcome, and_self]
  | none =>
    have hquery : step w (.query i env createdBy) =
        w.setTask i (.read (newCa env createdBy 0) false) := by
      simp only [step, h, hlatest]
    have hnew : newCa env createdBy w.db.certificateAuthorities.fresh =
        { newCa env createdBy 0 with id := w.db.certificateAuthorities.fresh } := rfl
    simp only [hquery, getActiveCa, hlatest, Option.getD_none, hnew, ensureMaterial_id]
    cases hensure : Keys.ensureMaterial env (newCa env createdBy 0) with
    | error e => simp only [step, setTask_self, hensure, setTask_db, outcome, Except.map, and_self]
    | ok ca' =>
      have hinsert := w.db.certificateAuthorities.upsert_fresh (fun id => { ca' with id := id })
        fun _ => rfl
      simp only [step, setTask_self, hensure, Except.map]
      cases env.writes .certificateAuthority with
      | false => simp only [Bool.false_eq_true, if_false, setTask_self, setTask_db, outcome, and_self]
      | true =>
        simp only [if_true, Bool.false_eq_true, if_false, saveCa, setTask_self, setTask_db, outcome,
          hinsert, and_self]

end Keywarden.AuthoritySteps
