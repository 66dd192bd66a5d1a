import Keywarden.AuthoritySteps

/-!
# Withdrawing an authority

A call that has read an authority writes all of it back, so a withdrawal between the two
is undone by the write.
-/
namespace Keywarden.AuthorityRevocation

open Rows Keys Transitions AuthoritySteps

/-- No authority that has been deactivated or revoked is in use. -/
def Withdrawn (w : World) : Prop :=
  ∀ ca ∈ w.db.certificateAuthorities, ca.id ∈ w.withdrawn → inUse ca = false

/-- No copy is written back whose authority has been withdrawn since it was read. -/
def SavesCurrent (w : World) : Event → Prop
  | .save i true => ∀ ca, w.tasks i = .ready ca true → ca.id ∉ w.withdrawn
  | _ => True

/-- The copy of a stored authority that a call has still to write back. -/
def copyOf : Task → Option SSHCertificateAuthority
  | .read ca true => some ca
  | .ready ca true => some ca
  | _ => none

/-- Such copies are of authorities in use, and those withdrawn are stored. -/
structure Copies (w : World) : Prop where
  inUse : ∀ i ca, copyOf (w.tasks i) = some ca → inUse ca = true
  stored : ∀ id ∈ w.withdrawn, (w.db.certificateAuthorities.find id).isSome = true

variable {w : World}

theorem copies_setTask (h : Copies w) (i : Nat) {task : Task}
    (htask : ∀ ca, copyOf task = some ca → AuthoritySteps.inUse ca = true) :
    Copies (w.setTask i task) := by
  refine ⟨fun j ca hj => ?_, h.stored⟩
  by_cases hji : j = i
  · rw [hji, setTask_self] at hj
    exact htask ca hj
  · rw [setTask_of_ne w task hji] at hj
    exact h.inUse j ca hj

theorem isSome_find_upsert (t : Table SSHCertificateAuthority) (row : SSHCertificateAuthority)
    {id : Nat} (h : (t.find id).isSome = true) : ((t.upsert row).find id).isSome = true := by
  rw [Table.find_upsert]
  split
  · rfl
  · exact h

/-- What writing a copy leaves. -/
theorem mem_saveCa {ca : SSHCertificateAuthority} {stored : Bool} {db : Db}
    {r : SSHCertificateAuthority} (hr : r ∈ (saveCa ca stored db).2.certificateAuthorities) :
    r = (saveCa ca stored db).1 ∨ r ∈ db.certificateAuthorities := by
  unfold saveCa at hr ⊢
  cases stored with
  | true => exact ((Table.mem_upsert _ _ _).mp hr).imp id And.left
  | false => exact ((Table.mem_create _ _ (fun _ => rfl) _).mp hr).symm

theorem saved_mem (ca : SSHCertificateAuthority) (stored : Bool) (db : Db) :
    (saveCa ca stored db).1 ∈ (saveCa ca stored db).2.certificateAuthorities := by
  unfold saveCa
  cases stored with
  | true => exact (Table.mem_upsert _ _ _).mpr (.inl rfl)
  | false => exact (Table.mem_create _ _ (fun _ => rfl) _).mpr (.inr rfl)

theorem isSome_find_saveCa (ca : SSHCertificateAuthority) (stored : Bool) (db : Db) {id : Nat}
    (h : (db.certificateAuthorities.find id).isSome = true) :
    ((saveCa ca stored db).2.certificateAuthorities.find id).isSome = true := by
  unfold saveCa
  cases stored with
  | true => exact isSome_find_upsert _ _ h
  | false =>
    obtain ⟨o, ho⟩ := Option.isSome_iff_exists.mp h
    have hfind := Table.find_create_of_some db.certificateAuthorities
      (fun id => { ca with id := id }) (fun _ => rfl) ho
    simp only [Bool.false_eq_true, if_false, hfind, Option.isSome_some]

theorem copies_withdraw (h : Copies w) (id : Nat) (e : Table.Edit SSHCertificateAuthority) :
    Copies (withdraw w id e) := by
  unfold withdraw
  split
  · exact h
  · next ca hca =>
    refine ⟨h.inUse, fun x hx => ?_⟩
    rw [Table.isSome_find_update]
    obtain rfl | hx := List.mem_cons.mp hx
    · rw [hca]
      rfl
    · exact h.stored x hx

theorem copies_step (w : World) (e : Event) (h : Copies w) : Copies (step w e) := by
  cases e with
  | query i env createdBy =>
    simp only [step]
    split
    · split
      · next ca hca =>
        refine copies_setTask h i fun ca' hca' => ?_
        cases hca'
        exact (latestCa_some hca).2
      · exact copies_setTask h i fun ca hca => by cases hca
    · exact h
  | ensureMaterial i env =>
    simp only [step]
    split
    · next ca stored hread =>
      split
      · exact copies_setTask h i fun ca hca => by cases hca
      · next ca' hensure =>
        refine copies_setTask h i fun ca'' hca'' => ?_
        cases stored with
        | false => cases hca''
        | true =>
          cases hca''
          rw [inUse_ensureMaterial hensure]
          exact h.inUse i ca (by rw [hread]; rfl)
    · exact h
  | save i works =>
    simp only [step]
    split
    · next ca stored hready =>
      split
      · have hsaved : Copies { w with db := (saveCa ca stored w.db).2 } :=
          ⟨h.inUse, fun id hid => isSome_find_saveCa ca stored w.db (h.stored id hid)⟩
        exact copies_setTask hsaved i fun ca hca => by cases hca
      · exact copies_setTask h i fun ca hca => by cases hca
    · exact h
  | deactivate id => exact copies_withdraw h id deactivated
  | revoke id now => exact copies_withdraw h id (revoked now)

/-- A withdrawal holds at first. -/
theorem withdrawn_withdraw (h : Withdrawn w) (id : Nat) {e : Table.Edit SSHCertificateAuthority}
    (he : ∀ ca, inUse (e.apply ca) = false) : Withdrawn (withdraw w id e) := by
  unfold withdraw
  split
  · exact h
  · intro r hr hid
    obtain ⟨o, ho, rfl⟩ := (Table.mem_update _ _ _ _).mp hr
    split
    · exact he o
    · next hne =>
      rw [if_neg hne] at hid
      obtain hid | hid := List.mem_cons.mp hid
      · exact absurd (decide_eq_true hid) hne
      · exact h o ho hid

/-- A save keeps every withdrawal if and only if the row it writes has not been withdrawn. -/
theorem withdrawn_save_iff (hcopies : Copies w) (h : Withdrawn w) {i : Nat}
    {ca : SSHCertificateAuthority} {stored : Bool} (hready : w.tasks i = .ready ca stored) :
    Withdrawn { w with db := (saveCa ca stored w.db).2 } ↔ (stored = true → ca.id ∉ w.withdrawn) := by
  have hothers : ((saveCa ca stored w.db).1.id ∉ w.withdrawn) →
      Withdrawn { w with db := (saveCa ca stored w.db).2 } := by
    intro hnot r hr hid
    obtain rfl | hr := mem_saveCa hr
    · exact absurd hid hnot
    · exact h r hr hid
  cases stored with
  | false =>
    refine iff_of_true (hothers fun hid => ?_) fun hf => by cases hf
    obtain ⟨o, ho⟩ := Option.isSome_iff_exists.mp (hcopies.stored _ hid)
    obtain ⟨ho, hkey⟩ := (Table.find_eq_some _ _ _).mp ho
    have hlt := Table.key_lt_fresh _ ho
    rw [hkey] at hlt
    exact Nat.lt_irrefl _ hlt
  | true =>
    constructor
    · intro hafter _ hid
      have huse := hcopies.inUse i ca (by rw [hready]; rfl)
      rw [hafter ca (saved_mem ca true w.db) hid] at huse
      cases huse
    · exact fun hnot => hothers (hnot rfl)

theorem withdrawn_step_iff (w : World) (e : Event) (hcopies : Copies w) (h : Withdrawn w) :
    Withdrawn (step w e) ↔ SavesCurrent w e := by
  cases e with
  | query i env createdBy =>
    refine iff_of_true ?_ trivial
    simp only [step]
    split
    · split <;> exact h
    · exact h
  | ensureMaterial i env =>
    refine iff_of_true ?_ trivial
    simp only [step]
    split
    · split <;> exact h
    · exact h
  | save i works =>
    simp only [step]
    cases works with
    | false =>
      refine iff_of_true ?_ trivial
      split <;> exact h
    | true =>
      split
      · next ca stored hready =>
        simp only [if_true, SavesCurrent, hready, Task.ready.injEq, and_imp]
        refine (withdrawn_save_iff hcopies h hready).trans ⟨?_, fun hall hs => hall ca rfl hs⟩
        rintro hnot _ rfl hs
        exact hnot hs
      · next hother =>
        exact iff_of_true h fun ca hca => absurd hca (hother ca true)
  | deactivate id => exact iff_of_true (withdrawn_withdraw h id fun _ => rfl) trivial
  | revoke id now => exact iff_of_true (withdrawn_withdraw h id fun _ => rfl) trivial

/-- In any interleaving of calls and withdrawals: every authority that has been withdrawn
stays out of use if and only if no call writes back its copy of one that has been
withdrawn since the call read it. -/
theorem withdrawn_iff (db : Db) (events : List Event) :
    Always step Withdrawn (start db) events ↔ Along step SavesCurrent (start db) events := by
  refine always_iff_along (E := fun _ _ => True) (I := Copies) (fun w e _ => copies_step w e)
    (fun w e _ => withdrawn_step_iff w e) (along_of_mem _ fun _ _ => trivial) ⟨?_, ?_⟩ ?_
  · intro i ca h
    cases h
  · intro id h
    cases h
  · intro ca _ h
    cases h

def oldCa : SSHCertificateAuthority where
  id := 1
  name := "Keywarden User SSH CA".toList
  publicKey := "ssh-ed25519 AAAA keywarden".toList
  privateKey := "private".toList
  fingerprint := "SHA256:AAAA".toList
  createdAt := 0
  revokedAt := none
  isActive := true
  createdBy := none

def oneCa : Db where
  users := .empty
  certificateAuthorities := Table.empty.insert oldCa

/-- An agent polls while the administrator deactivates the authority. -/
theorem deactivation_undone : ¬ Always step Withdrawn (start oneCa)
    [.query 0 workingEnv none, .ensureMaterial 0 workingEnv, .deactivate 1, .save 0 true] := by
  intro h
  have hin : oldCa ∈ (run step (start oneCa) [.query 0 workingEnv none, .ensureMaterial 0 workingEnv,
      .deactivate 1, .save 0 true]).db.certificateAuthorities := by decide +kernel
  exact absurd (always_last h oldCa hin (by decide +kernel)) (by decide)

end Keywarden.AuthorityRevocation
