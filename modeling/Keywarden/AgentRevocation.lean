import Keywarden.AgentSync

/-!
# Revocations that fail

The state file is written with the wanted accounts whatever became of the
revocations, so a revocation gets one attempt. An account is lost, enabled and
forgotten, exactly when that attempt fails.
-/
namespace Keywarden.AgentRevocation

open Rows Transitions AgentHost AgentSync Username

variable {T : CaseTable} {policy : AccountPolicy}

/-- Every account provisioned for a user who is not in the latest list is disabled
or recorded. -/
def Retained (w : World) : Prop :=
  ∀ o ∈ w.provisioned, (∀ u ∈ w.latest, u.userID ≠ o.userID) →
    Disabled w.system.host o.systemUser ∨ Recorded w.system o.systemUser

/-- Every provisioned account that the call drops from the state file is disabled
already, or the commands that disable it succeed. -/
def DropsDisabled (T : CaseTable) (policy : AccountPolicy) (w : World) (call : SyncCall) : Prop :=
  ∀ o ∈ w.provisioned, Recorded w.system o.systemUser → ¬ Wanted T policy call.users o.systemUser →
    ∀ a, w.system.host.accounts o.systemUser = some a →
      (a.locked = true ∨
        ∃ r ∈ w.system.file.users, r.systemUser = o.systemUser ∧ Locks call.faults r) ∧
      (a.expired = true ∨
        ∃ r ∈ w.system.file.users, r.systemUser = o.systemUser ∧ Expires call.faults r)

/-- Every user id of the call keeps its one system username. -/
def Named (T : CaseTable) (policy : AccountPolicy) (nameOf : Int → Name) (users : List AccessUser) :
    Prop := ∀ u ∈ users, (managed T policy u).systemUser = nameOf u.userID

/-- The invariant of runs in which names are kept. -/
structure Invariant (T : CaseTable) (policy : AccountPolicy) (nameOf : Int → Name) (w : World) :
    Prop where
  consistent : Consistent T policy w
  latest : Named T policy nameOf w.latest
  provisioned : ∀ o ∈ w.provisioned, o.systemUser = nameOf o.userID

theorem name_of_mem {nameOf : Int → Name} {users : List AccessUser}
    (h : Named T policy nameOf users) {q : ManagedAccount} (hq : q ∈ desired T policy users) :
    q.systemUser = nameOf q.userID := by
  obtain ⟨u, hu, rfl⟩ := mem_desired hq
  exact h u hu

/-- The account of a listed user is wanted. -/
theorem wanted_of_mem {nameOf : Int → Name} {users : List AccessUser}
    (h : Named T policy nameOf users) {u : AccessUser} (hu : u ∈ users) :
    Wanted T policy users (nameOf u.userID) := by
  have hs := (find_desired T policy users u.userID).mpr ⟨u, hu, rfl⟩
  obtain ⟨q, hq⟩ := Option.isSome_iff_exists.mp hs
  obtain ⟨hq, hi⟩ := (Table.find_eq_some _ _ _).mp hq
  have hi' : q.userID = u.userID := hi
  exact ⟨q, hq, by rw [name_of_mem h hq, hi']⟩

theorem step_invariant (hp : policy.lockOnRevoke = true) {nameOf : Int → Name} {w : World}
    {call : SyncCall} (hname : Named T policy nameOf call.users) (hio : call.StateFileOk)
    (h : Invariant T policy nameOf w) : Invariant T policy nameOf (step T policy w call) := by
  refine ⟨step_consistent hp hio h.consistent, hname, ?_⟩
  intro o ho
  obtain ho | ⟨ho, _⟩ := (mem_provisioned_step T policy w call o).mp ho
  · exact h.provisioned o ho
  · obtain ⟨_, _, _, hrep⟩ := sync_spec T hp hio h.consistent.file_ne
    exact name_of_mem hname (hrep o ho).1

/-- What a call does to an account it does not want: only revocations of records
of that account count, since none of their user ids is wanted. -/
theorem step_unwanted (hp : policy.lockOnRevoke = true) {nameOf : Int → Name} {w : World}
    {call : SyncCall} (hname : Named T policy nameOf call.users) (hio : call.StateFileOk)
    (h : Invariant T policy nameOf w) {x : Name} (hx : ¬ Wanted T policy call.users x) :
    Retires (∃ r ∈ w.system.file.users, r.systemUser = x ∧ Locks call.faults r)
      (∃ r ∈ w.system.file.users, r.systemUser = x ∧ Expires call.faults r)
      (w.system.host.accounts x) ((step T policy w call).system.host.accounts x) := by
  obtain ⟨_, hun, _, _⟩ := sync_spec T hp hio h.consistent.file_ne
  have hstale : ∀ r ∈ w.system.file.users,
      (Stale (desired T policy call.users) x r ↔ r.systemUser = x) := by
    intro r hr
    refine ⟨fun hs => hs.1, fun hrx => ⟨hrx, ?_⟩⟩
    by_contra hf
    have hs : ((desired T policy call.users).find r.userID).isSome = true :=
      Option.isSome_iff_ne_none.mpr hf
    obtain ⟨u, hu, hi⟩ := (find_desired T policy call.users r.userID).mp hs
    have hrn := name_of_mem h.latest ((h.consistent.recorded r).mp hr)
    apply hx
    rw [← hrx, hrn, ← hi]
    exact wanted_of_mem hname hu
  have hlock : ∀ P : ManagedAccount → Prop,
      (∃ r ∈ w.system.file.users, Stale (desired T policy call.users) x r ∧ P r) ↔
        ∃ r ∈ w.system.file.users, r.systemUser = x ∧ P r := by
    intro P
    constructor
    · rintro ⟨r, hr, hs, hP⟩
      exact ⟨r, hr, (hstale r hr).mp hs, hP⟩
    · rintro ⟨r, hr, hs, hP⟩
      exact ⟨r, hr, (hstale r hr).mpr hs, hP⟩
  have hret := hun x fun q hq hqx => hx ⟨q, hq, hqx⟩
  rw [hlock, hlock] at hret
  exact hret

theorem retained_step_iff (hp : policy.lockOnRevoke = true) {nameOf : Int → Name} {w : World}
    {call : SyncCall} (hname : Named T policy nameOf call.users) (hio : call.StateFileOk)
    (h : Invariant T policy nameOf w) (hw : Retained w) :
    Retained (step T policy w call) ↔ DropsDisabled T policy w call := by
  have h' := step_invariant hp hname hio h
  have hrec := fun x => recorded_iff h.consistent x
  have hrec' := fun x => recorded_iff h'.consistent x
  constructor
  · intro hQ o ho _ hwant a ha
    have hout : ∀ u ∈ call.users, u.userID ≠ o.userID := by
      intro u hu hi
      apply hwant
      rw [h.provisioned o ho, ← hi]
      exact wanted_of_mem hname hu
    have ho' := (mem_provisioned_step T policy w call o).mpr (.inl ho)
    obtain ⟨b, hb, hl, he⟩ | hr := hQ o ho' hout
    · obtain ⟨b', hb', hl', he'⟩ := (step_unwanted hp hname hio h hwant).2 a ha
      rw [hb] at hb'
      obtain rfl := Option.some.inj hb'
      exact ⟨hl'.mp hl, he'.mp he⟩
    · exact absurd ((hrec' _).mp hr) hwant
  · intro hP o ho hout
    obtain ho | ⟨ho, _⟩ := (mem_provisioned_step T policy w call o).mp ho
    · by_cases hwant : Wanted T policy call.users o.systemUser
      · exact .inr ((hrec' _).mpr hwant)
      · left
        obtain ⟨a, ha⟩ := Option.isSome_iff_exists.mp (h.consistent.present o ho)
        obtain ⟨b, hb, hl, he⟩ := (step_unwanted hp hname hio h hwant).2 a ha
        by_cases hr : Recorded w.system o.systemUser
        · obtain ⟨hlock, hexp⟩ := hP o ho hr hwant a ha
          exact ⟨b, hb, hl.mpr hlock, he.mpr hexp⟩
        · have hold : ∀ u ∈ w.latest, u.userID ≠ o.userID := by
            intro u hu hi
            apply hr
            rw [hrec, h.provisioned o ho, ← hi]
            exact wanted_of_mem h.latest hu
          obtain ⟨a', ha', hla, hea⟩ | hr' := hw o ho hold
          · rw [ha] at ha'
            obtain rfl := Option.some.inj ha'
            exact ⟨b, hb, hl.mpr (.inl hla), he.mpr (.inl hea)⟩
          · exact absurd hr' hr
    · exfalso
      obtain ⟨_, _, _, hrep⟩ := sync_spec T hp hio h.consistent.file_ne
      obtain ⟨u, hu, hq⟩ := mem_desired (hrep o ho).1
      exact hout u hu (congrArg ManagedAccount.userID hq).symm

/-- In a run whose commands may fail in any way, no provisioned account of a dropped
user is ever lost if and only if each call disables what it drops. -/
theorem retained_iff (hp : policy.lockOnRevoke = true) (nameOf : Int → Name) (host : Host)
    (calls : List SyncCall) (hname : ∀ call ∈ calls, Named T policy nameOf call.users)
    (hio : ∀ call ∈ calls, call.StateFileOk) :
    Always (step T policy) Retained (start host) calls ↔
      Along (step T policy) (DropsDisabled T policy) (start host) calls := by
  refine always_iff_along (E := fun _ call => Named T policy nameOf call.users ∧ call.StateFileOk)
    (I := Invariant T policy nameOf) ?_ ?_ ?_ ?_ ?_
  · exact fun w call hE h => step_invariant hp hE.1 hE.2 h
  · exact fun w call hE h hw => retained_step_iff hp hE.1 hE.2 h hw
  · exact along_of_mem _ fun call hc => ⟨hname call hc, hio call hc⟩
  · exact ⟨start_consistent T policy host, by simp [start, Named], by simp [start]⟩
  · simp [Retained, start]

/-! ## Two calls that drop an account -/

def alice : Name := "alice".toList
def lockPolicy : AccountPolicy := ⟨defaultTemplate, "/bin/bash".toList, true, true⟩
def bareHost : Host := { accounts := fun _ => none, group := false }
def grantAlice : SyncCall where
  users := [⟨1, alice, alice⟩]

/-- `chage -E 0` exits with an error, everything else runs. -/
def chageFails : Faults := fun _ c => if c = .expire then .exit else .ok

/-- Alice provisioned, then dropped by a call without failures. -/
theorem retained_after_revocation :
    Always (step .keep lockPolicy) Retained (start bareHost) [grantAlice, { users := [] }] := by
  refine (retained_iff rfl (fun _ => alice) bareHost _ ?_
    ?_).mpr ⟨?_, ?_, trivial⟩
  · intro call hc u hu
    obtain rfl | rfl := List.mem_pair.mp hc
    · rw [List.mem_singleton.mp hu]
      rfl
    · cases hu
  · intro call hc
    obtain rfl | rfl := List.mem_pair.mp hc <;> exact ⟨rfl, rfl⟩
  · intro o ho
    cases ho
  · intro o ho _ _ a _
    have hprov : (step .keep lockPolicy (start bareHost) grantAlice).provisioned =
      [⟨1, alice, true⟩] := by decide
    rw [hprov] at ho
    rw [List.mem_singleton.mp ho]
    exact ⟨.inr ⟨⟨1, alice⟩, by decide, rfl, rfl, rfl⟩, .inr ⟨⟨1, alice⟩, by decide, rfl, ⟨rfl, rfl⟩, rfl⟩⟩

/-- If the expiry fails in the call that drops her, she stays enabled and no later
call knows of her. -/
theorem revocation_lost :
    ¬ ∀ (T : CaseTable) (policy : AccountPolicy) (nameOf : Int → Name) (host : Host)
      (calls : List SyncCall), policy.lockOnRevoke = true →
      (∀ call ∈ calls, Named T policy nameOf call.users) →
      (∀ call ∈ calls, call.StateFileOk) →
      Always (step T policy) Retained (start host) calls := by
  intro h
  let calls : List SyncCall := [grantAlice, { users := [], faults := chageFails }]
  have hall := h .keep lockPolicy (fun _ => alice) bareHost calls rfl (by
    intro call hc u hu
    obtain rfl | rfl := List.mem_pair.mp hc
    · rw [List.mem_singleton.mp hu]
      rfl
    · cases hu) (by
    intro call hc
    obtain rfl | rfl := List.mem_pair.mp hc <;> exact ⟨rfl, rfl⟩)
  have hlast : Retained (run (step .keep lockPolicy) (start bareHost) calls) :=
    (always_iff _ _ _ _).mp hall calls (List.prefix_refl calls)
  obtain ⟨a, ha, _, he⟩ | ⟨r, hr, _⟩ := hlast ⟨1, alice, true⟩ (by decide) (by intro u hu; cases hu)
  · have hacc : (run (step .keep lockPolicy) (start bareHost) calls).system.host.accounts alice =
        some ⟨"/home/alice".toList, true, "/bin/bash".toList, true, true, false⟩ := by decide
    rw [hacc] at ha
    obtain rfl := Option.some.inj ha
    exact absurd he (by decide)
  · cases hr

end Keywarden.AgentRevocation
