import Keywarden.AccessSteps
import Keywarden.Transitions

/-!
# Grants and synchronisations that overlap

Each half of a synchronisation is a statement of its own, so a grant can outlive the
request that backs it. What stands in for the request meanwhile is a call that owes the
pair a synchronisation: it has still to ask, or it has been told to take the grant away.
-/
namespace Keywarden.AccessRepair

open Rows Transitions Access AccessSteps
open AccessRun hiding World Event step apply

/-- The pair that the statement asks about, or that its call asks about right after. -/
def syncs : Stmt → Option (UserId × ServerId)
  | .insertRequest r | .queryAccess r => some (pair r)
  | _ => none

/-- The pair of a removal that is next. -/
def removes (answer : Bool) : List Stmt → List (UserId × ServerId)
  | .applyAccess r :: _ => if answer then [] else [pair r]
  | _ => []

def progressOwes (t : Progress) : List (UserId × ServerId) :=
  t.todo.filterMap syncs ++ removes t.answer t.todo

/-- The pairs a call has still to ask about or to take a grant from. -/
def owes : Task → List (UserId × ServerId)
  | .started t => if t.aborted then [] else progressOwes t
  | _ => []

variable {n : Nat}

/-- Somebody other than the call itself stands in for a request. -/
def CoveredByOthers (w : World n) (i : Fin n) (p : UserId × ServerId) : Prop :=
  p ∈ approved w.db ∨ ∃ j, j ≠ i ∧ p ∈ owes (w.tasks j)

/-- Every grant is backed by an approved request, or some call owes its pair a
synchronisation. -/
def Backed (w : World n) : Prop :=
  ∀ p ∈ held w.db, p ∈ approved w.db ∨ ∃ j, p ∈ owes (w.tasks j)

/-- The pair that the next statement grants, when its call asks no more about it. -/
def lastAssigns (t : Progress) : List (UserId × ServerId) :=
  match t.todo with
  | .applyAccess r :: rest => if t.answer && pair r ∉ rest.filterMap syncs then [pair r] else []
  | _ => []

def assigns : Task → List (UserId × ServerId)
  | .started t => if t.aborted then [] else lastAssigns t
  | _ => []

/-- A call that assigns the permission and asks no more about the pair finds it covered
by others, and so does a call that is aborted with a synchronisation outstanding, unless
nothing is granted. -/
def Covers (w : World n) : Event n → Prop
  | .start _ _ _ => True
  | .advance i _ => ∀ p ∈ assigns (w.tasks i), CoveredByOthers w i p
  | .abort i => ∀ p ∈ owes (w.tasks i), p ∈ held w.db → CoveredByOthers w i p

instance (db : Db) (p : UserId × ServerId) : Decidable (p ∈ approved db) :=
  inferInstanceAs (Decidable (∃ r ∈ db.accessRequests.rows,
    (r.requester, r.server) = p ∧ r.status = .approved))

instance (db : Db) (p : UserId × ServerId) : Decidable (p ∈ held db) :=
  inferInstanceAs (Decidable (HoldsView db p.1 p.2))

instance (w : World n) (i : Fin n) (p : UserId × ServerId) : Decidable (CoveredByOthers w i p) :=
  inferInstanceAs (Decidable (_ ∨ _))

instance (w : World n) : (e : Event n) → Decidable (Covers w e)
  | .start _ _ _ => isTrue trivial
  | .advance _ _ => inferInstanceAs (Decidable (∀ _ ∈ _, _))
  | .abort _ => inferInstanceAs (Decidable (∀ _ ∈ _, _ → _))

/-! ## Grants and approved rows after one write -/

theorem mem_held (db : Db) (p : UserId × ServerId) :
    p ∈ held db ↔ (⟨p.1, .viewServer, p.2⟩ : UserObjectPermission) ∈ db.userObjectPermissions :=
  Iff.rfl

theorem approved_of_eq {db db' : Db} (h : db'.accessRequests = db.accessRequests) :
    approved db' = approved db := by
  simp only [approved, h]

theorem mem_held_setPerm (granted : Bool) (r : AccessRequest) (db : Db) (p : UserId × ServerId) :
    p ∈ held (setPerm granted (viewPerm r) db) ↔
      if granted then p = pair r ∨ p ∈ held db else p ≠ pair r ∧ p ∈ held db := by
  have hpair : (⟨p.1, .viewServer, p.2⟩ : UserObjectPermission) = viewPerm r ↔ p = pair r := by
    rw [Prod.ext_iff, viewPerm, UserObjectPermission.mk.injEq]
    simp [pair]
  cases granted with
  | true => simp only [setPerm, if_true, mem_held, mem_assignPerm, hpair]
  | false => simp only [setPerm, Bool.false_eq_true, if_false, mem_held, mem_removePerm, ne_eq, hpair]

theorem mem_held_blockApply {now : Instant} {b : Block} {db : Db} {p : UserId × ServerId}
    (h : p ∈ held (b.apply now db)) : p ∈ held db ∨ p = pair b.row := by
  unfold Block.apply at h
  cases hg : b.grant with
  | none =>
    rw [hg] at h
    exact .inl h
  | some granted =>
    rw [hg, mem_held_setPerm] at h
    split at h
    · exact h.symm
    · exact .inl h.2

theorem held_assignPerm {q : UserObjectPermission} (h : q.permission ≠ .viewServer) (db : Db) :
    held (assignPerm q db) = held db := by
  ext p
  rw [mem_held, mem_held, mem_assignPerm]
  have hne : (⟨p.1, .viewServer, p.2⟩ : UserObjectPermission) ≠ q := fun he => h (by rw [← he])
  simp [hne]

/-- An answer of yes is backed by a row. -/
theorem approved_of_hasValidAccess {now : Instant} {r : AccessRequest} {db : Db}
    (h : hasValidAccess now r.requester r.server db = true) : pair r ∈ approved db :=
  entitled_approved now db ((hasValidAccess_entitled now _ _ db).mp h)

/-- Only a write to a row of the pair can take the last approved row from it. -/
theorem approved_of_rows {db db' : Db} {r : AccessRequest} {p : UserId × ServerId} (hr : Known db r)
    (hrows : ∀ o ∈ db.accessRequests, o.id ≠ r.id → o ∈ db'.accessRequests) (h : p ∈ approved db) :
    p ∈ approved db' ∨ p = pair r := by
  obtain ⟨o, ho, hp, hs⟩ := h
  by_cases hid : o.id = r.id
  · exact .inr (hp.symm.trans (hr.pair_eq ho hid))
  · exact .inl ⟨o, hrows o ho hid, hp, hs⟩

/-! ## One statement -/

section Statement

variable {w : World n} {i : Fin n} {now : Instant} {t t' : Progress} {db : Db}

theorem owes_of_syncs {p : UserId × ServerId} (h : p ∈ t.todo.filterMap syncs) : p ∈ progressOwes t :=
  List.mem_append_left _ h

/-- A grant was there before, or its pair is owed a synchronisation, or the statement is
the last of its call about the pair. -/
theorem held_outcome (hout : Outcome w i now t db t') {p : UserId × ServerId} (hp : p ∈ held db) :
    p ∈ held w.db ∨ p ∈ progressOwes t' ∨ p ∈ lastAssigns t := by
  cases hout with
  | assign hq hl hb ht => exact .inl (held_assignPerm hq w.db ▸ hp)
  | @apply r l hl hb ht =>
    rw [mem_held_setPerm] at hp
    by_cases hans : t.answer = true
    · rw [if_pos hans] at hp
      obtain rfl | hp := hp
      · by_cases hlater : pair r ∈ l.filterMap syncs
        · exact .inr (.inl (owes_of_syncs hlater))
        · exact .inr (.inr (by simp [lastAssigns, ht, hans, hlater]))
      · exact .inl hp
    · rw [if_neg hans] at hp
      exact .inl hp.2
  | commit b hl hb ht =>
    obtain h | rfl := mem_held_blockApply hp
    · exact .inl h
    · exact .inr (.inl (owes_of_syncs List.mem_cons_self))
  | insert | save | query | expire | blockQuery | blockApply => exact .inl hp

/-- A pair keeps its approved row, or the call that has written it owes a synchronisation. -/
theorem approved_outcome (hout : Outcome w i now t db t') (hknown : ∀ r ∈ t.pending, Known w.db r)
    {p : UserId × ServerId} (hp : p ∈ approved w.db) : p ∈ approved db ∨ p ∈ progressOwes t' := by
  cases hout with
  | insert r hb ht =>
    obtain ⟨o, ho, h⟩ := hp
    exact .inl ⟨o, (Table.mem_create _ _ (fun _ => rfl) o).mpr (.inl ho), h⟩
  | save r hb ht hfree =>
    have hr : Known w.db r := hknown r (by
      simp only [Progress.pending, ht]
      exact List.mem_append_right _ List.mem_cons_self)
    have hrows : ∀ o ∈ w.db.accessRequests, o.id ≠ r.id →
        o ∈ ({ w.db with accessRequests := w.db.accessRequests.save r } : Db).accessRequests :=
      fun o ho hid => (Table.mem_save _ _ _).mpr (.inr ⟨ho, hid⟩)
    obtain h | rfl := approved_of_rows hr hrows hp
    · exact .inl h
    · exact .inr (owes_of_syncs List.mem_cons_self)
  | apply r hl hb ht =>
    rw [approved_of_eq (setPerm_accessRequests t.answer (viewPerm r) w.db)]
    exact .inl hp
  | commit b hl hb ht =>
    have hr : Known w.db b.row := hknown b.row (by
      simp only [Progress.pending, hb]
      exact List.mem_cons_self)
    have hrows : ∀ o ∈ w.db.accessRequests, o.id ≠ b.row.id →
        o ∈ (b.apply t.now w.db).accessRequests := by
      intro o ho hid
      rw [Block.apply_accessRequests, Table.mem_update]
      exact ⟨o, ho, by simp [hid]⟩
    obtain h | rfl := approved_of_rows hr hrows hp
    · exact .inl h
    · exact .inr (owes_of_syncs List.mem_cons_self)
  | assign | query | expire | blockQuery | blockApply => exact .inl hp

/-- A synchronisation stays owed until the grant is gone, or was answered with yes for a
row that is there. -/
theorem owes_outcome (hout : Outcome w i now t db t') {p : UserId × ServerId}
    (hp : p ∈ progressOwes t) : p ∈ progressOwes t' ∨ p ∈ approved db ∨ p ∉ held db := by
  have hcases := List.mem_append.mp hp
  cases hout with
  | insert r hb ht =>
    rw [ht] at hcases
    exact .inl (owes_of_syncs (hcases.resolve_right List.not_mem_nil))
  | assign hq hl hb ht =>
    rw [ht] at hcases
    exact .inl (owes_of_syncs (hcases.resolve_right List.not_mem_nil))
  | save r hb ht hfree =>
    rw [ht] at hcases
    exact .inl (owes_of_syncs (hcases.resolve_right List.not_mem_nil))
  | query r hl hb ht =>
    rw [ht] at hcases
    obtain rfl | h := List.mem_cons.mp (hcases.resolve_right List.not_mem_nil)
    · cases hans : hasValidAccess now r.requester r.server w.db with
      | true => exact .inr (.inl (approved_of_hasValidAccess hans))
      | false => exact .inl (List.mem_append_right _ (List.mem_singleton_self _))
    · exact .inl (owes_of_syncs h)
  | apply r hl hb ht =>
    rw [ht] at hcases
    obtain h | h := hcases
    · exact .inl (owes_of_syncs h)
    · by_cases hans : t.answer = true
      · simp only [removes, hans, if_true, List.not_mem_nil] at h
      · simp only [removes, hans, Bool.false_eq_true, if_false, List.mem_singleton] at h
        refine .inr (.inr fun hheld => ?_)
        rw [mem_held_setPerm, if_neg hans] at hheld
        exact hheld.1 h
  | expire r hl hb ht hfree =>
    rw [ht] at hcases
    exact .inl (owes_of_syncs (hcases.resolve_right List.not_mem_nil))
  | blockQuery b hl hb ht =>
    rw [ht] at hcases
    obtain rfl | h := List.mem_cons.mp (hcases.resolve_right List.not_mem_nil)
    · exact .inl (owes_of_syncs List.mem_cons_self)
    · exact .inl (owes_of_syncs h)
  | blockApply b grant hl hb ht =>
    rw [ht] at hcases
    obtain h | h := hcases
    · exact .inl (owes_of_syncs h)
    · simp only [removes] at h
      split at h
      · cases h
      · rw [List.mem_singleton.mp h]
        exact .inl (owes_of_syncs List.mem_cons_self)
  | commit b hl hb ht =>
    rw [ht] at hcases
    exact .inl (owes_of_syncs (hcases.resolve_right List.not_mem_nil))

end Statement

/-! ## One step -/

theorem owes_started {t : Progress} (h : t.aborted = false) : owes (.started t) = progressOwes t := by
  simp only [owes, h, Bool.false_eq_true, if_false]

/-- What has to be shown of a step that changes one task and the database. -/
theorem backed_setTask {w : World n} {i : Fin n} {task : Task} {db : Db} (hB : Backed w)
    (hheld : ∀ p ∈ held db, p ∈ held w.db ∨ p ∈ owes task ∨ CoveredByOthers w i p)
    (happroved : ∀ p ∈ approved w.db, p ∈ approved db ∨ p ∈ owes task)
    (howes : ∀ p ∈ held db, p ∈ owes (w.tasks i) →
      p ∈ owes task ∨ p ∈ approved db ∨ CoveredByOthers w i p) :
    Backed (w.setTask i task db) := by
  have htask : ∀ p ∈ owes task, ∃ j, p ∈ owes ((w.setTask i task db).tasks j) :=
    fun p hp => ⟨i, by rwa [setTask_self]⟩
  have hrow : ∀ p ∈ approved w.db,
      p ∈ approved db ∨ ∃ j, p ∈ owes ((w.setTask i task db).tasks j) :=
    fun p hp => (happroved p hp).imp_right (htask p)
  have hothers : ∀ p, CoveredByOthers w i p →
      p ∈ approved db ∨ ∃ j, p ∈ owes ((w.setTask i task db).tasks j) := by
    rintro p (h | ⟨j, hji, h⟩)
    · exact hrow p h
    · exact .inr ⟨j, by rwa [setTask_of_ne w task db hji]⟩
  intro p hp
  obtain h | h | h := hheld p hp
  · obtain ha | ⟨j, hj⟩ := hB p h
    · exact hrow p ha
    · by_cases hji : j = i
      · rw [hji] at hj
        obtain h' | h' | h' := howes p hp hj
        · exact .inr (htask p h')
        · exact .inl h'
        · exact hothers p h'
      · exact hothers p (.inr ⟨j, hji, hj⟩)
  · exact .inr (htask p h)
  · exact hothers p h

theorem backed_outcome {w : World n} {i : Fin n} {now : Instant} {t t' : Progress} {db : Db}
    (hI : Inv w) (hi : w.tasks i = .started t) (halive : t.aborted = false)
    (hout : Outcome w i now t db t') (hB : Backed w) (hc : Covers w (.advance i now)) :
    Backed (w.setTask i (.started t') db) := by
  have hold : owes (w.tasks i) = progressOwes t := by rw [hi, owes_started halive]
  have hnew : owes (.started t') = progressOwes t' := owes_started (hout.aborted_eq.trans halive)
  have hassigns : assigns (w.tasks i) = lastAssigns t := by
    simp only [hi, assigns, halive, Bool.false_eq_true, if_false]
  refine backed_setTask hB ?_ ?_ ?_ <;> rw [hnew]
  · intro p hp
    obtain h | h | h := held_outcome hout hp
    · exact .inl h
    · exact .inr (.inl h)
    · exact .inr (.inr (hc p (hassigns ▸ h)))
  · exact fun p hp => approved_outcome hout (hI.known i t hi) hp
  · intro p hp howe
    rw [hold] at howe
    obtain h | h | h := owes_outcome hout howe
    · exact .inl h
    · exact .inr (.inl h)
    · exact absurd hp h

theorem backed_step (cfg : Settings) (w : World n) (e : Event n) (hI : Inv w) (hB : Backed w)
    (hc : Covers w e) : Backed (step cfg w e) := by
  obtain h | ⟨i, now, call, err, rfl, hi, h⟩ | ⟨i, now, call, todo, rfl, hi, _, h⟩ |
    ⟨i, now, t, db, t', rfl, hi, halive, hout, h⟩ | ⟨i, t, rfl, hi, h⟩ := step_cases cfg w e hI
  · rw [h]
    exact hB
  · rw [h]
    refine backed_setTask hB (fun p hp => .inl hp) (fun p hp => .inl hp) ?_
    intro p _ hp
    rw [hi] at hp
    cases hp
  · rw [h]
    refine backed_setTask hB (fun p hp => .inl hp) (fun p hp => .inl hp) ?_
    intro p _ hp
    rw [hi] at hp
    cases hp
  · rw [h]
    exact backed_outcome hI hi halive hout hB hc
  · rw [h]
    refine backed_setTask hB (fun p hp => .inl hp) (fun p hp => .inl hp) ?_
    exact fun p hp howe => .inr (.inr (hc p howe hp))

/-- A call with a transaction open asks about its pair again. -/
theorem syncs_of_block {b : Block} {todo : List Stmt} (h : Plan (some b) todo) :
    pair b.row ∈ todo.filterMap syncs := by
  cases h with
  | blockQuery b hl => exact List.mem_cons_self
  | blockApply b hl => exact List.mem_cons_self
  | commit b hl => exact List.mem_cons_self

theorem owes_of_openBlock {w : World n} {j : Fin n} {b : Block} (hI : Inv w)
    (h : (w.tasks j).openBlock = some b) : pair b.row ∈ owes (w.tasks j) := by
  cases hj : w.tasks j with
  | idle => rw [hj] at h; cases h
  | rejected e => rw [hj] at h; cases h
  | started t =>
    rw [hj] at h
    cases haborted : t.aborted with
    | true => simp [Task.openBlock, haborted] at h
    | false =>
      simp only [Task.openBlock, haborted, Bool.false_eq_true, if_false] at h
      have hplan := hI.plan j t hj
      rw [h] at hplan
      rw [owes_started haborted]
      exact owes_of_syncs (syncs_of_block hplan)

/-- What waits for a permission waits for a call that owes its pair a synchronisation. -/
theorem covered_of_permLocked {w : World n} {i : Fin n} {r : AccessRequest} {granted : Bool} (hI : Inv w)
    (h : w.permLocked i (viewPerm r) granted) : CoveredByOthers w i (pair r) := by
  obtain ⟨j, hji, hlock⟩ := h
  cases hb : (w.tasks j).openBlock with
  | none => rw [hb] at hlock; cases hlock
  | some b =>
    rw [hb] at hlock
    simp only [Option.any_some, Bool.and_eq_true, decide_eq_true_eq] at hlock
    have hpair : pair b.row = pair r := by
      have hperm := hlock.1
      simp only [viewPerm, UserObjectPermission.mk.injEq, true_and] at hperm
      rw [pair, pair, hperm.1, hperm.2]
    exact .inr ⟨j, hji, hpair ▸ owes_of_openBlock hI hb⟩

theorem mem_lastAssigns {t : Progress} {p : UserId × ServerId} (h : p ∈ lastAssigns t) :
    ∃ r rest, t.todo = .applyAccess r :: rest ∧ t.answer = true ∧ pair r ∉ rest.filterMap syncs ∧
      p = pair r := by
  unfold lastAssigns at h
  split at h
  · next r rest ht =>
    split at h
    · next hcond =>
      simp only [Bool.and_eq_true, decide_eq_true_eq] at hcond
      exact ⟨r, rest, ht, hcond.1, hcond.2, List.mem_singleton.mp h⟩
    · cases h
  · cases h

@[simp] theorem removes_true (todo : List Stmt) : removes true todo = [] := by
  unfold removes
  split <;> rfl

/-- The last assignment of a call about a pair waits, or leaves the grant in place and
its call without anything owed to the pair. -/
theorem exec_lastAssign {w : World n} {i : Fin n} (now : Instant) {t : Progress} {r : AccessRequest}
    {rest : List Stmt} (hI : Inv w) (hi : w.tasks i = .started t) (ht : t.todo = .applyAccess r :: rest)
    (hans : t.answer = true) (hlater : pair r ∉ rest.filterMap syncs) :
    w.permLocked i (viewPerm r) true ∨ ∃ db t', exec w i now t t.todo = some (db, t') ∧
      approved db = approved w.db ∧ pair r ∈ held db ∧ t'.aborted = t.aborted ∧
      pair r ∉ progressOwes t' := by
  have hplan := hI.plan i t hi
  have howes : pair r ∉ progressOwes { t with todo := rest } := by
    simp only [progressOwes, hans, removes_true, List.append_nil]
    exact hlater
  cases hb : t.block with
  | some b =>
    rw [hb, ht] at hplan
    cases hplan with
    | blockApply b hl => exact absurd List.mem_cons_self hlater
  | none =>
    by_cases hheld : HoldsView w.db r.requester r.server
    · refine .inr ⟨w.db, { t with todo := rest }, ?_, rfl, hheld, rfl, howes⟩
      simp only [ht, exec, Progress.view, hb, hans, hheld, if_true]
    · by_cases hlock : w.permLocked i (viewPerm r) true
      · exact .inl hlock
      · refine .inr ⟨assignPerm (viewPerm r) w.db, { t with todo := rest }, ?_, rfl, ?_, rfl, howes⟩
        · simp only [ht, exec, Progress.view, hb, hans, hheld, hlock, if_false, false_iff,
            not_true_eq_false]
          rfl
        · exact (mem_held_setPerm true r w.db (pair r)).mpr (.inl rfl)

/-- The condition is exact: a step after which every grant is backed meets it. -/
theorem covers_of_backed (cfg : Settings) (w : World n) (e : Event n) (hI : Inv w)
    (hB : Backed (step cfg w e)) : Covers w e := by
  cases e with
  | start i now call => trivial
  | advance i now =>
    intro p hp
    cases hi : w.tasks i with
    | idle => rw [hi] at hp; cases hp
    | rejected e => rw [hi] at hp; cases hp
    | started t =>
      rw [hi] at hp
      cases halive : t.aborted with
      | true => simp [assigns, halive] at hp
      | false =>
        simp only [assigns, halive, Bool.false_eq_true, if_false] at hp
        obtain ⟨r, rest, ht, hans, hlater, rfl⟩ := mem_lastAssigns hp
        obtain hlock | ⟨db, t', hexec, hrows, hheld, halive', howes⟩ :=
          exec_lastAssign now hI hi ht hans hlater
        · exact covered_of_permLocked hI hlock
        · simp only [step, hi, halive, Bool.false_eq_true, if_false, hexec] at hB
          obtain h | ⟨j, hj⟩ := hB (pair r) hheld
          · exact .inl (hrows ▸ h)
          · by_cases hji : j = i
            · rw [hji, setTask_self, owes_started (halive'.trans halive)] at hj
              exact absurd hj howes
            · rw [setTask_of_ne w _ _ hji] at hj
              exact .inr ⟨j, hji, hj⟩
  | abort i =>
    intro p hp hheld
    cases hi : w.tasks i with
    | idle => rw [hi] at hp; cases hp
    | rejected e => rw [hi] at hp; cases hp
    | started t =>
      simp only [step, hi] at hB
      obtain h | ⟨j, hj⟩ := hB p hheld
      · exact .inl h
      · by_cases hji : j = i
        · rw [hji, setTask_self] at hj
          simp only [owes, if_true, List.not_mem_nil] at hj
        · rw [setTask_of_ne w _ _ hji] at hj
          exact .inr ⟨j, hji, hj⟩

/-! ## Whole runs -/

theorem owes_of_stopped {task : Task} (h : Stopped task) : owes task = [] := by
  cases task with
  | idle => rfl
  | rejected e => rfl
  | started t =>
    obtain h | h := h
    · simp only [owes, h, if_true]
    · simp only [owes, progressOwes, h]
      split <;> rfl

/-- When every call has stopped, an approved request backs every grant. -/
theorem held_subset_approved {w : World n} (hB : Backed w) (hstop : ∀ i, Stopped (w.tasks i)) :
    held w.db ⊆ approved w.db := by
  intro p hp
  obtain h | ⟨j, hj⟩ := hB p hp
  · exact h
  · rw [owes_of_stopped (hstop j)] at hj
    cases hj

/-- Every state of a run is backed exactly when every event of it meets the condition. -/
theorem backed_iff (cfg : Settings) (db : Db) (hdb : held db ⊆ approved db) (events : List (Event n)) :
    Always (step cfg) Backed (initial n db) events ↔
      Along (step cfg) Covers (initial n db) events := by
  refine always_iff_along (E := fun _ _ => True) (I := Inv) (fun w e _ hI => inv_step cfg w e hI) ?_
    (along_of_mem _ fun _ _ => trivial) (inv_initial db) (fun p hp => .inl (hdb hp))
  intro w e _ hI hB
  exact ⟨covers_of_backed cfg w e hI, backed_step cfg w e hI hB⟩

/-- Any number of calls, their statements in any order, each of them possibly aborted:
if every last assignment and every abort finds its pair covered, then once all have
stopped and the sweep has run, nobody holds `view_server` without an approved request
that has not run out. -/
theorem backed_after_expire (cfg : Settings) (db : Db) (hdb : held db ⊆ approved db)
    (events : List (Event n)) (hcovers : Along (step cfg) Covers (initial n db) events)
    (hstop : ∀ i, Stopped ((run (step cfg) (initial n db) events).tasks i)) (now : Instant)
    (u : UserId) (s : ServerId) :
    let swept := (expireAccessRequests now (run (step cfg) (initial n db) events).db).2
    HoldsView swept u s → ∃ r ∈ swept.accessRequests, r.requester = u ∧ r.server = s ∧
      r.status = .approved ∧ (r.expiresAt = none ∨ ∃ e, r.expiresAt = some e ∧ now < e) := by
  intro swept hview
  have hbacked : Backed (run (step cfg) (initial n db) events) :=
    (always_iff _ _ _ _).mp ((backed_iff cfg db hdb events).mpr hcovers) events (List.prefix_refl _)
  have hheld : (u, s) ∈ held swept := hview
  rw [← mem_entitled_iff, entitled_expireAccessRequests]
  exact held_expire_subset (held_subset_approved hbacked hstop) hheld

/-! ## Two synchronisations -/

/-- The first call gets its last answer before the second call starts. -/
def overlapping (i j : Fin n) : List (Event n) :=
  .start i 5 extend :: List.replicate 4 (.advance i 5) ++
    .start j 6 revoke :: List.replicate 5 (.advance j 6)

/-- Without its last statement the first call leaves no grant behind. -/
theorem backed_after_revocation :
    ¬ HoldsView (expireAccessRequests 50
      (run (step utc) (initial 2 oneGrant) (overlapping 0 1 ++ [.abort 0])).db).2 7 1 := by
  intro hview
  have hbacked := backed_after_expire (n := 2) utc oneGrant oneGrant_approved
    (overlapping 0 1 ++ [.abort 0]) (by decide +kernel) (by decide +kernel) 50 7 1
  obtain ⟨r, hr, _, _, hs, _⟩ := hbacked hview
  have hrevoked : ∀ r ∈ (expireAccessRequests 50
      (run (step utc) (initial 2 oneGrant) (overlapping 0 1 ++ [.abort 0])).db).2.accessRequests.rows,
      r.status = .revoked := by decide +kernel
  rw [hrevoked r ((Table.mem_def _ _).mp hr)] at hs
  cases hs

/-- Its last statement grants the permission again. -/
theorem stale_answer_applied :
    ¬ ∀ (n : Nat) (cfg : Settings) (db : Db), held db ⊆ approved db → ∀ events : List (Event n),
      (∀ i, Stopped ((run (step cfg) (initial n db) events).tasks i)) →
      ∀ (now : Instant) (u : UserId) (s : ServerId),
        let swept := (expireAccessRequests now (run (step cfg) (initial n db) events).db).2
        HoldsView swept u s → ∃ r ∈ swept.accessRequests, r.requester = u ∧ r.server = s ∧
          r.status = .approved ∧ (r.expiresAt = none ∨ ∃ e, r.expiresAt = some e ∧ now < e) := by
  intro h
  obtain ⟨r, hr, _, _, hs, _⟩ := h 2 utc oneGrant oneGrant_approved (overlapping 0 1 ++ [.advance 0 7])
    (by decide +kernel) 50 7 1 (by decide +kernel)
  have hrevoked : ∀ r ∈ (expireAccessRequests 50
      (run (step utc) (initial 2 oneGrant) (overlapping 0 1 ++ [.advance 0 7])).db).2.accessRequests.rows,
      r.status = .revoked := by decide +kernel
  rw [hrevoked r ((Table.mem_def _ _).mp hr)] at hs
  cases hs

end Keywarden.AccessRepair
