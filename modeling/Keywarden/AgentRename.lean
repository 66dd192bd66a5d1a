import Keywarden.AgentSync

/-!
# Accounts whose user changes name

Revocation goes by user id, an account by its name. When nothing fails, what is
enabled among the provisioned accounts is what is wanted, as long as an account
that is no longer wanted is recorded for some user id that has left the list.
-/
namespace Keywarden.AgentRename

open Rows Transitions AgentHost AgentSync Username

variable {T : CaseTable} {policy : AccountPolicy}

/-- Among the accounts ever provisioned the enabled ones are those of the latest list. -/
def Exact (T : CaseTable) (policy : AccountPolicy) (w : World) : Prop :=
  ∀ o ∈ w.provisioned,
    (Enabled w.system.host o.systemUser ↔ Wanted T policy w.latest o.systemUser)

/-- An account that the call does not want is recorded for a user id that it does
not list either. -/
def DropsByID (T : CaseTable) (policy : AccountPolicy) (w : World) (call : SyncCall) : Prop :=
  ∀ r ∈ w.system.file.users, ¬ Wanted T policy call.users r.systemUser →
    ∃ q ∈ w.system.file.users, q.systemUser = r.systemUser ∧ ∀ u ∈ call.users, u.userID ≠ q.userID

/-- No command and no file operation of the call fails. -/
def Faultless (call : SyncCall) : Prop := call.faults = noFaults ∧ call.StateFileOk

structure Invariant (T : CaseTable) (policy : AccountPolicy) (w : World) : Prop where
  consistent : Consistent T policy w
  recorded : ∀ q ∈ w.system.file.users, ⟨q.userID, q.systemUser, true⟩ ∈ w.provisioned

theorem step_invariant (hp : policy.lockOnRevoke = true) {w : World} {call : SyncCall}
    (hf : Faultless call) (h : Invariant T policy w) : Invariant T policy (step T policy w call) := by
  have hc := step_consistent hp hf.2 h.consistent
  refine ⟨hc, ?_⟩
  intro q hq
  obtain ⟨_, hrep⟩ := sync_noFaults T policy hf.1 hf.2 h.consistent.file_ne q
    ((hc.recorded q).mp hq)
  exact (mem_provisioned_step T policy w call _).mpr (.inr ⟨hrep, rfl⟩)

theorem expires_noFaults (r : ManagedAccount) : Expires noFaults r := ⟨⟨rfl, rfl⟩, rfl⟩

theorem stale_iff (users : List AccessUser) (x : Name) (r : ManagedAccount) :
    Stale (desired T policy users) x r ↔
      r.systemUser = x ∧ ∀ u ∈ users, u.userID ≠ r.userID := by
  unfold Stale
  rw [← Option.not_isSome_iff_eq_none, find_desired]
  simp

/-- What a call without failures does to a provisioned account it does not want. -/
theorem enabled_unwanted (hp : policy.lockOnRevoke = true) {w : World} {call : SyncCall}
    (hf : Faultless call) (h : Invariant T policy w) {o : ReportAccount} (ho : o ∈ w.provisioned)
    (hx : ¬ Wanted T policy call.users o.systemUser) :
    Enabled (step T policy w call).system.host o.systemUser ↔
      Enabled w.system.host o.systemUser ∧
        ¬ ∃ q ∈ w.system.file.users, q.systemUser = o.systemUser ∧
          ∀ u ∈ call.users, u.userID ≠ q.userID := by
  obtain ⟨_, hun, _, _⟩ := sync_spec T hp hf.2 h.consistent.file_ne
  have hret := hun o.systemUser fun q hq hqx => hx ⟨q, hq, hqx⟩
  rw [hf.1] at hret
  simp only [stale_iff, expires_noFaults, and_true] at hret
  obtain ⟨a, ha⟩ := Option.isSome_iff_exists.mp (h.consistent.present o ho)
  obtain ⟨b, hb, _, he⟩ := hret.2 a ha
  have hb' : (step T policy w call).system.host.accounts o.systemUser = some b := hb
  simp only [Enabled, ha, hb', Option.some.injEq, exists_eq_left', ← Bool.not_eq_true, he, not_or]

theorem exact_step_iff (hp : policy.lockOnRevoke = true) {w : World} {call : SyncCall}
    (hf : Faultless call) (h : Invariant T policy w) (hw : Exact T policy w) :
    Exact T policy (step T policy w call) ↔ DropsByID T policy w call := by
  constructor
  · intro hQ r hr hwant
    by_contra hno
    have ho := h.recorded r hr
    have hen : Enabled w.system.host r.systemUser :=
      (hw _ ho).mpr ((recorded_iff h.consistent _).mp ⟨r, hr, rfl⟩)
    have hen' := (enabled_unwanted hp hf h ho hwant).mpr ⟨hen, hno⟩
    exact hwant ((hQ _ ((mem_provisioned_step T policy w call _).mpr (.inl ho))).mp hen')
  · intro hP o ho
    constructor
    · intro hen
      by_contra hwant
      obtain ho | ⟨ho, _⟩ := (mem_provisioned_step T policy w call o).mp ho
      · obtain ⟨hold, hno⟩ := (enabled_unwanted hp hf h ho hwant).mp hen
        obtain ⟨r, hr, hrx⟩ := (recorded_iff h.consistent _).mpr ((hw o ho).mp hold)
        obtain ⟨q, hq, hqx, hout⟩ := hP r hr (by rw [hrx]; exact hwant)
        exact hno ⟨q, hq, hqx.trans hrx, hout⟩
      · obtain ⟨_, _, _, hrep⟩ := sync_spec T hp hf.2 h.consistent.file_ne
        exact hwant ⟨_, (hrep o ho).1, rfl⟩
    · rintro ⟨q, hq, hqx⟩
      rw [← hqx]
      exact (sync_noFaults T policy hf.1 hf.2 h.consistent.file_ne q hq).1

/-- In a run without failures the enabled accounts are those of the latest list after
every call if and only if each call drops accounts only together with a user id. -/
theorem exact_iff (hp : policy.lockOnRevoke = true) (host : Host) (calls : List SyncCall)
    (hf : ∀ call ∈ calls, Faultless call) :
    Always (step T policy) (Exact T policy) (start host) calls ↔
      Along (step T policy) (DropsByID T policy) (start host) calls := by
  refine always_iff_along (E := fun _ => Faultless) (I := Invariant T policy) ?_ ?_
    (along_of_mem _ hf) ?_ ?_
  · exact fun w call hE h => step_invariant hp hE h
  · exact fun w call hE h hw => exact_step_iff hp hE h hw
  · exact ⟨start_consistent T policy host, by simp [start, StateFile.users]⟩
  · simp [Exact, start]

/-! ## A user who is renamed -/

def bob : AccessUser := ⟨1, "bob".toList, "bob".toList⟩
def robert : AccessUser := ⟨1, "robert".toList, "robert".toList⟩
def carol : AccessUser := ⟨2, "carol".toList, "carol".toList⟩
def renamePolicy : AccountPolicy := ⟨defaultTemplate, "/bin/bash".toList, true, true⟩
def emptyHost : Host := { accounts := fun _ => none, group := false }

/-- Bob is replaced by another user. -/
theorem exact_after_replacement :
    Always (step .keep renamePolicy) (Exact .keep renamePolicy) (start emptyHost)
      [{ users := [bob] }, { users := [carol] }] := by
  refine (exact_iff rfl emptyHost _ ?_).mpr
    ⟨?_, ?_, trivial⟩
  · intro call hc
    obtain rfl | rfl := List.mem_pair.mp hc <;> exact ⟨rfl, rfl, rfl⟩
  · intro r hr
    cases hr
  · intro r hr _
    have hfile : (step .keep renamePolicy (start emptyHost) { users := [bob] }).system.file.users =
      [⟨1, "bob".toList⟩] := by decide
    rw [hfile] at hr ⊢
    rw [List.mem_singleton.mp hr]
    exact ⟨_, List.mem_singleton_self _, rfl, by simp [carol]⟩

/-- Bob is renamed: his old account stays enabled. -/
theorem rename_keeps_account :
    ¬ ∀ (T : CaseTable) (policy : AccountPolicy) (host : Host) (calls : List SyncCall),
      policy.lockOnRevoke = true → (∀ call ∈ calls, Faultless call) →
      Always (step T policy) (Exact T policy) (start host) calls := by
  intro h
  let calls : List SyncCall := [{ users := [bob] }, { users := [robert] }]
  have hall := h .keep renamePolicy emptyHost calls rfl (by
    intro call hc
    obtain rfl | rfl := List.mem_pair.mp hc <;> exact ⟨rfl, rfl, rfl⟩)
  have hlast : Exact .keep renamePolicy (run (step .keep renamePolicy) (start emptyHost) calls) :=
    (always_iff _ _ _ _).mp hall calls (List.prefix_refl calls)
  have hen : Enabled (run (step .keep renamePolicy) (start emptyHost) calls).system.host
      "bob".toList :=
    ⟨⟨"/home/bob".toList, true, "/bin/bash".toList, true, true, false⟩, by decide, rfl⟩
  obtain ⟨q, hq, hqx⟩ := (hlast ⟨1, "bob".toList, true⟩ (by decide)).mp hen
  have hwant : (desired .keep renamePolicy [robert]).toList = [⟨1, "robert".toList⟩] := by decide
  have hq' : q ∈ (desired .keep renamePolicy [robert]).toList := hq
  rw [hwant, List.mem_singleton] at hq'
  rw [hq'] at hqx
  exact absurd hqx (by decide)

end Keywarden.AgentRename
