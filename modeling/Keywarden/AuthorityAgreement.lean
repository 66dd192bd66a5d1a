import Keywarden.AuthoritySteps

/-!
# Agreement on the first authority

Calls that find no authority in use each make one. They agree as long as nobody inserts
one that another call has been faster with.
-/
namespace Keywarden.AuthorityAgreement

open Rows Keys Transitions AuthoritySteps

/-- Every call that has returned has returned the authority that the next call will read. -/
def Agreed (w : World) : Prop := ∀ i ca, w.tasks i = .returned ca → latestCa w.db = some ca

/-- A new authority is inserted only where none is in use. -/
def InsertsFirst (w : World) : Event → Prop
  | .save i true => ∀ ca, w.tasks i = .ready ca false → latestCa w.db = none
  | _ => True

/-- Steps of calls only, with an `ssh-keygen` that leaves no empty private key file. -/
def Calls : Event → Prop
  | .ensureMaterial _ env => ∀ privateKey publicKey, env.keygen = .ok (privateKey, publicKey) →
    privateKey ≠ []
  | .deactivate _ => False
  | .revoke _ _ => False
  | _ => True

structure Complete (ca : SSHCertificateAuthority) : Prop where
  publicKey : ca.publicKey ≠ []
  privateKey : ca.privateKey ≠ []
  fingerprint : ca.fingerprint ≠ []

/-- What a call under way holds: the copy of a stored authority is as it is stored. -/
def Holds (db : Db) : Task → Prop
  | .read ca true => ca ∈ db.certificateAuthorities ∧ inUse ca = true
  | .ready ca true => ca ∈ db.certificateAuthorities ∧ inUse ca = true
  | .read ca false => inUse ca = true
  | .ready ca false => inUse ca = true ∧ Complete ca
  | _ => True

/-- Every authority in use is complete and some call has returned it. -/
structure Origins (w : World) : Prop where
  complete : ∀ ca ∈ w.db.certificateAuthorities, inUse ca = true → Complete ca
  returned : ∀ ca ∈ w.db.certificateAuthorities, inUse ca = true → ∃ i, w.tasks i = .returned ca
  holds : ∀ i, Holds w.db (w.tasks i)

/-! ## Key material -/

theorem fingerprint_ne_nil {sha256 : List Nat → List Nat} {publicKey : List Char} {p : PublicKey}
    (h : parsePublicKey sha256 publicKey = .ok p) : p.fingerprint ≠ [] ∧ publicKey ≠ [] := by
  constructor
  · unfold parsePublicKey at h
    split at h
    · split at h
      · cases h
        simp
      · cases h
    · cases h
  · rintro rfl
    cases h

theorem complete_ensureMaterial {env : Env} {ca ca' : SSHCertificateAuthority}
    (hkeygen : ∀ privateKey publicKey, env.keygen = .ok (privateKey, publicKey) → privateKey ≠ [])
    (h : Keys.ensureMaterial env ca = .ok ca') : Complete ca' := by
  unfold Keys.ensureMaterial at h
  split at h
  · next hkeys =>
    split at h
    · split at h
      · cases h
      · next p hp =>
        cases h
        exact ⟨hkeys.1, hkeys.2, (fingerprint_ne_nil hp).1⟩
    · next hfingerprint =>
      cases h
      exact ⟨hkeys.1, hkeys.2, hfingerprint⟩
  · split at h
    · cases h
    · next privateKey publicKey hgen =>
      split at h
      · cases h
      · next p hp =>
        cases h
        exact ⟨(fingerprint_ne_nil hp).2, hkeygen _ _ hgen, (fingerprint_ne_nil hp).1⟩

/-- Nothing is missing, so nothing is made. -/
theorem ensureMaterial_of_complete (env : Env) {ca : SSHCertificateAuthority} (h : Complete ca) :
    Keys.ensureMaterial env ca = .ok ca := by
  unfold Keys.ensureMaterial
  rw [if_pos ⟨h.publicKey, h.privateKey⟩, if_neg h.fingerprint]

/-! ## The invariant -/

variable {w : World}

theorem holds_mono {db db' : Db} (h : ∀ ca ∈ db.certificateAuthorities, ca ∈ db'.certificateAuthorities)
    {task : Task} (ht : Holds db task) : Holds db' task := by
  match task, ht with
  | .read ca true, ht => exact ⟨h ca ht.1, ht.2⟩
  | .ready ca true, ht => exact ⟨h ca ht.1, ht.2⟩
  | .read ca false, ht => exact ht
  | .ready ca false, ht => exact ht
  | .idle, _ => trivial
  | .returned _, _ => trivial
  | .failed _, _ => trivial

/-- A call that has not returned goes on. -/
theorem origins_setTask (h : Origins w) {i : Nat} {task : Task}
    (hother : ∀ ca, w.tasks i ≠ .returned ca) (htask : Holds w.db task) : Origins (w.setTask i task) := by
  refine ⟨h.complete, fun ca hca huse => ?_, fun j => ?_⟩
  · obtain ⟨j, hj⟩ := h.returned ca hca huse
    have hji : j ≠ i := by
      rintro rfl
      exact hother ca hj
    exact ⟨j, by rw [setTask_of_ne w task hji, hj]⟩
  · by_cases hji : j = i
    · rw [hji, setTask_self]
      exact htask
    · rw [setTask_of_ne w task hji]
      exact h.holds j

theorem agreed_setTask (h : Agreed w) {i : Nat} {task : Task}
    (htask : ∀ ca, task ≠ .returned ca) : Agreed (w.setTask i task) := by
  intro j ca hj
  by_cases hji : j = i
  · rw [hji, setTask_self] at hj
    exact absurd hj (htask ca)
  · rw [setTask_of_ne w task hji] at hj
    exact h j ca hj

/-- Writing back the copy of a stored authority changes nothing. -/
theorem saveCa_stored (h : Origins w) {i : Nat} {ca : SSHCertificateAuthority}
    (hready : w.tasks i = .ready ca true) : saveCa ca true w.db = (ca, w.db) := by
  have hholds := h.holds i
  rw [hready] at hholds
  rw [saveCa, if_pos rfl, Table.upsert_of_mem _ hholds.1]

theorem mem_insert_new {ca r : SSHCertificateAuthority} {db : Db} :
    r ∈ (saveCa ca false db).2.certificateAuthorities ↔
      r ∈ db.certificateAuthorities ∨ r = (saveCa ca false db).1 :=
  Table.mem_create db.certificateAuthorities (fun id => { ca with id := id }) (fun _ => rfl) r

theorem origins_insert (h : Origins w) {i : Nat} {ca : SSHCertificateAuthority}
    (hready : w.tasks i = .ready ca false) :
    Origins ({ w with db := (saveCa ca false w.db).2 }.setTask i (.returned (saveCa ca false w.db).1)) := by
  have hholds := h.holds i
  rw [hready] at hholds
  obtain ⟨huse, hcomplete⟩ := hholds
  refine ⟨fun r hr hruse => ?_, fun r hr hruse => ?_, fun j => ?_⟩
  · obtain hr | rfl := mem_insert_new.mp hr
    · exact h.complete r hr hruse
    · exact ⟨hcomplete.publicKey, hcomplete.privateKey, hcomplete.fingerprint⟩
  · obtain hr | rfl := mem_insert_new.mp hr
    · obtain ⟨j, hj⟩ := h.returned r hr hruse
      have hji : j ≠ i := by
        rintro rfl
        rw [hready] at hj
        cases hj
      exact ⟨j, by rw [setTask_of_ne _ _ hji]; exact hj⟩
    · exact ⟨i, setTask_self _ _ _⟩
  · by_cases hji : j = i
    · rw [hji, setTask_self]
      trivial
    · rw [setTask_of_ne _ _ hji]
      exact holds_mono (fun r hr => mem_insert_new.mpr (.inl hr)) (h.holds j)

theorem origins_step (w : World) (e : Event) (he : Calls e) (h : Origins w) : Origins (step w e) := by
  cases e with
  | query i env createdBy =>
    simp only [step]
    split
    · next hidle =>
      have hother : ∀ ca, w.tasks i ≠ .returned ca := fun ca hr => by rw [hidle] at hr; cases hr
      split
      · next ca hca => exact origins_setTask h hother (latestCa_some hca)
      · exact origins_setTask h hother rfl
    · exact h
  | ensureMaterial i env =>
    simp only [step]
    split
    · next ca stored hread =>
      have hother : ∀ ca, w.tasks i ≠ .returned ca := fun ca hr => by rw [hread] at hr; cases hr
      have hholds := h.holds i
      rw [hread] at hholds
      split
      · exact origins_setTask h hother trivial
      · next ca' hensure =>
        refine origins_setTask h hother ?_
        cases stored with
        | true =>
          rw [ensureMaterial_of_complete env (h.complete ca hholds.1 hholds.2)] at hensure
          cases hensure
          exact hholds
        | false =>
          refine ⟨?_, complete_ensureMaterial he hensure⟩
          rw [inUse_ensureMaterial hensure]
          exact hholds
    · exact h
  | save i works =>
    simp only [step]
    split
    · next ca stored hready =>
      have hother : ∀ ca, w.tasks i ≠ .returned ca := fun ca hr => by rw [hready] at hr; cases hr
      split
      · cases stored with
        | true =>
          rw [saveCa_stored h hready]
          exact origins_setTask h hother trivial
        | false => exact origins_insert h hready
      · exact origins_setTask h hother trivial
    · exact h
  | deactivate id => exact he.elim
  | revoke id now => exact he.elim

/-! ## Agreement -/

/-- The copy of a stored authority is of the one that everybody has returned. -/
theorem agreed_stored (horigins : Origins w) (h : Agreed w) {i : Nat} {ca : SSHCertificateAuthority}
    (hready : w.tasks i = .ready ca true) : Agreed (w.setTask i (.returned ca)) := by
  have hholds := horigins.holds i
  rw [hready] at hholds
  obtain ⟨j, hj⟩ := horigins.returned ca hholds.1 hholds.2
  intro k r hk
  by_cases hki : k = i
  · rw [hki, setTask_self] at hk
    cases hk
    exact h j ca hj
  · rw [setTask_of_ne w _ hki] at hk
    exact h k r hk

theorem agreed_insert_iff (horigins : Origins w) (h : Agreed w) {i : Nat}
    {ca : SSHCertificateAuthority} (hready : w.tasks i = .ready ca false) :
    Agreed ({ w with db := (saveCa ca false w.db).2 }.setTask i (.returned (saveCa ca false w.db).1)) ↔
      latestCa w.db = none := by
  have hholds := horigins.holds i
  rw [hready] at hholds
  constructor
  · intro hafter
    cases hlatest : latestCa w.db with
    | none => rfl
    | some r =>
      exfalso
      obtain ⟨hr, hruse⟩ := latestCa_some hlatest
      obtain ⟨j, hj⟩ := horigins.returned r hr hruse
      have hji : j ≠ i := by
        rintro rfl
        rw [hready] at hj
        cases hj
      have hfirst := hafter j r (by rw [setTask_of_ne _ _ hji]; exact hj)
      have hsecond := hafter i _ (setTask_self _ _ _)
      have hsame : r = (saveCa ca false w.db).1 := Option.some.inj (hfirst.symm.trans hsecond)
      have hlt := Table.key_lt_fresh _ hr
      rw [hsame] at hlt
      exact Nat.lt_irrefl _ hlt
  · intro hnone k r hk
    have honly : latestCa (saveCa ca false w.db).2 = some (saveCa ca false w.db).1 := by
      refine latestCa_only (mem_insert_new.mpr (.inr rfl)) hholds.1 fun r hr hruse => ?_
      obtain hr | hr := mem_insert_new.mp hr
      · rw [latestCa_none hnone r hr] at hruse
        cases hruse
      · exact hr
    by_cases hki : k = i
    · rw [hki, setTask_self] at hk
      cases hk
      exact honly
    · rw [setTask_of_ne _ _ hki] at hk
      have hold := h k r hk
      rw [hnone] at hold
      cases hold

theorem agreed_step_iff (w : World) (e : Event) (he : Calls e) (horigins : Origins w) (h : Agreed w) :
    Agreed (step w e) ↔ InsertsFirst w e := by
  cases e with
  | query i env createdBy =>
    refine iff_of_true ?_ trivial
    simp only [step]
    split
    · split <;> exact agreed_setTask h fun ca hca => by cases hca
    · exact h
  | ensureMaterial i env =>
    refine iff_of_true ?_ trivial
    simp only [step]
    split
    · split <;> exact agreed_setTask h fun ca hca => by cases hca
    · exact h
  | save i works =>
    simp only [step]
    cases works with
    | false =>
      refine iff_of_true ?_ trivial
      split
      · exact agreed_setTask h fun ca hca => by cases hca
      · exact h
    | true =>
      split
      · next ca stored hready =>
        simp only [if_true, InsertsFirst, hready, Task.ready.injEq, and_imp]
        cases stored with
        | true =>
          rw [saveCa_stored horigins hready]
          exact iff_of_true (agreed_stored horigins h hready) fun _ _ hf => by cases hf
        | false =>
          refine (agreed_insert_iff horigins h hready).trans ⟨fun hn _ _ _ => hn, fun hall => ?_⟩
          exact hall ca rfl rfl
      · next hother => exact iff_of_true h fun ca hca => absurd hca (hother ca false)
  | deactivate id => exact he.elim
  | revoke id now => exact he.elim

/-- From no authority in use, in any interleaving of calls: all that have returned have at
every moment returned the one authority that the next call reads, if and only if none is
inserted where one is in use already. -/
theorem agreed_iff (db : Db) (events : List Event) (hnone : latestCa db = none)
    (hcalls : ∀ e ∈ events, Calls e) :
    Always step Agreed (start db) events ↔ Along step InsertsFirst (start db) events := by
  refine always_iff_along (E := fun _ => Calls) (I := Origins) origins_step agreed_step_iff
    (along_of_mem _ hcalls) ⟨?_, ?_, fun _ => trivial⟩ ?_
  · intro ca hca huse
    rw [latestCa_none hnone ca hca] at huse
    cases huse
  · intro ca hca huse
    rw [latestCa_none hnone ca hca] at huse
    cases huse
  · intro i ca h
    cases h

theorem calls_workingEnv (i : Nat) : Calls (.ensureMaterial i workingEnv) := by
  intro privateKey publicKey h
  cases h
  decide

def noCa : Db where
  users := .empty

/-- One call has returned and another one is under way. -/
theorem agreed_in_turn : Always step Agreed (start noCa) [.query 0 workingEnv none,
    .ensureMaterial 0 workingEnv, .save 0 true, .query 1 workingEnv none,
    .ensureMaterial 1 workingEnv] := by
  refine (agreed_iff noCa _ (by decide) ?_).mpr ⟨trivial, trivial, ?_, trivial, trivial, trivial⟩
  · simp only [List.forall_mem_cons, List.not_mem_nil, false_imp_iff, implies_true, and_true]
    exact ⟨trivial, calls_workingEnv 0, trivial, trivial, calls_workingEnv 1⟩
  · exact fun _ _ => by decide +kernel

/-- `ssh-keygen` makes another key for the second call. -/
def secondEnv : Env :=
  { workingEnv with keygen := .ok ("other".toList, "ssh-ed25519 AAAB keywarden".toList) }

def madeCa (id : Nat) (privateKey publicKey : List Char) : SSHCertificateAuthority where
  id := id
  name := "Keywarden User SSH CA".toList
  publicKey := publicKey
  privateKey := privateKey
  fingerprint := "SHA256:".toList ++ b64encode zerosDigest
  createdAt := 1000
  revokedAt := none
  isActive := true
  createdBy := none

/-- Two calls at a time return two authorities. -/
theorem two_returned : ¬ Always step Agreed (start noCa) [.query 0 workingEnv none,
    .query 1 secondEnv none, .ensureMaterial 0 workingEnv, .ensureMaterial 1 secondEnv,
    .save 0 true, .save 1 true] := by
  intro h
  have hagreed := always_last h
  have hfirst := hagreed 0 (madeCa 1 "private".toList "ssh-ed25519 AAAA keywarden".toList)
    (by decide +kernel)
  have hsecond := hagreed 1 (madeCa 2 "other".toList "ssh-ed25519 AAAB keywarden".toList)
    (by decide +kernel)
  exact absurd (hfirst.symm.trans hsecond) (by decide)

end Keywarden.AuthorityAgreement
