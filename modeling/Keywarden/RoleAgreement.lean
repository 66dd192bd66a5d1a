import Keywarden.Erasure
import Keywarden.Users

/-!
# The two copies of a role

A user has a role as a group and as the flags `is_staff` and `is_superuser`. The API,
the command `ensure_admin` and an erasure write both, the flags by a later save. In a
run in which no write fails the copies agree, and the role they give is the one that
was last set.
-/
namespace Keywarden.RoleAgreement

open Rows Keys Username Authorization Users Transitions Erasure

inductive Op where
  | createUser : CreateEnv → Caller → Bool → UserCreateIn → Op
  | updateUser : UserEnv → Caller → Bool → Int → UserUpdateIn → Op
  | ensureAdmin : CreateEnv → (String → Option (List Char)) → Op
  | process : ErasureRequest → UserId → List Char → List Char → Instant → Op

/-- The database, and for each user the canonical form of the role that was last set. A
user has none before the first, and none after an erasure. -/
structure State where
  db : Db
  lastSet : UserId → Option String

def start (db : Db) : State := ⟨{ db with users := .empty }, fun _ => none⟩

def step (s : State) : Op → State
  | .createUser env caller mayAdd payload =>
    match createUser env caller mayAdd payload s.db with
    | (.ok out, db) =>
      ⟨db, Function.update s.lastSet out.id (some (normalizeRole env.caseTable payload.role))⟩
    | (.error _, db) => ⟨db, s.lastSet⟩
  | .updateUser env caller mayChange userId payload =>
    match updateUser env caller mayChange userId payload s.db with
    | (.ok out, db) =>
      match payload.role with
      | some role =>
        ⟨db, Function.update s.lastSet out.id (some (normalizeRole env.caseTable role))⟩
      | none => ⟨db, s.lastSet⟩
    | (.error _, db) => ⟨db, s.lastSet⟩
  | .ensureAdmin env environ =>
    match ensureAdmin env environ s.db with
    | (.ok outcome, db) =>
      match outcome.user with
      | some user =>
        ⟨db, Function.update s.lastSet user.id (some (normalizeRole env.caseTable roleAdmin))⟩
      | none => ⟨db, s.lastSet⟩
    | (.error _, db) => ⟨db, s.lastSet⟩
  | .process self adminUser decisionReason token now =>
    if self.status = .processed then s
    else
      ⟨(process self adminUser decisionReason token now s.db).2,
        Function.update s.lastSet self.user none⟩

/-- The call does not end in an error of the database. -/
def Answered {α : Type} (result : Except Raised α × Db) : Prop :=
  ∀ e, result.1 = .error e → ∃ refused, e = .http refused

def NoWriteFails (s : State) : Op → Prop
  | .createUser env caller mayAdd payload => Answered (createUser env caller mayAdd payload s.db)
  | .updateUser env caller mayChange userId payload =>
    Answered (updateUser env caller mayChange userId payload s.db)
  | .ensureAdmin env environ => Answered (ensureAdmin env environ s.db)
  | .process .. => True

/-- What a user row says about the role, whichever copy is read. -/
structure Agrees (lastSet : Option String) (user : User) : Prop where
  atMostOne : (roleOrder.filter fun role => role ∈ user.groups).length ≤ 1
  isSuperuser : user.isSuperuser = true ↔ roleAdmin ∈ user.groups
  isStaff : user.isStaff = true ↔ roleAdmin ∈ user.groups
  role : getUserRole user = lastSet.getD roleUser

/-- A role is set of users in the table only. -/
structure Agreement (s : State) : Prop where
  agrees : ∀ user ∈ s.db.users, Agrees (s.lastSet user.id) user
  known : ∀ u, s.lastSet u ≠ none → ∃ user ∈ s.db.users, user.id = u

/-! ## One row -/

theorem Agrees.congr {lastSet : Option String} {user other : User} (h : Agrees lastSet other)
    (hsame : SameRole user other) : Agrees lastSet user := by
  obtain ⟨hgroups, hstaff, hsuper⟩ := hsame
  refine ⟨?_, ?_, ?_, ?_⟩
  · rw [hgroups]; exact h.atMostOne
  · rw [hgroups, hsuper]; exact h.isSuperuser
  · rw [hgroups, hstaff]; exact h.isStaff
  · rw [← h.role, getUserRole, getUserRole, hgroups, hsuper]

/-- The one role group that is left is the one of the role. -/
theorem agrees_setUserRole {T : CaseTable} {role : String} {user user' : User}
    (h : setUserRole T role user = .ok user') : Agrees (some (normalizeRole T role)) user' := by
  obtain ⟨hmem, rfl⟩ := setUserRole_ok h
  generalize normalizeRole T role = canonical at hmem ⊢
  simp only [roleOrder, List.mem_cons, List.not_mem_nil, or_false] at hmem
  obtain rfl | rfl := hmem
  · refine ⟨?_, ?_, ?_, ?_⟩ <;> simp [roleOrder, roleAdmin, roleUser, getUserRole]
  · refine ⟨?_, ?_, ?_, ?_⟩ <;> simp [roleOrder, roleAdmin, roleUser, getUserRole]

theorem agrees_none {user : User} (hgroups : user.groups = ∅) (hstaff : user.isStaff = false)
    (hsuper : user.isSuperuser = false) : Agrees none user := by
  refine ⟨?_, ?_, ?_, ?_⟩
  · simp [hgroups]
  · simp [hgroups, hsuper]
  · simp [hgroups, hstaff]
  · simp [getUserRole, hgroups, hsuper, roleOrder]

/-! ## One call -/

theorem Agreement.fresh {s : State} (h : Agreement s) : s.lastSet s.db.users.fresh = none := by
  by_contra hne
  obtain ⟨user, hmem, hid⟩ := h.known _ hne
  exact absurd (Table.key_lt_fresh s.db.users hmem) (by
    rw [show Keyed.key user = user.id from rfl, hid]
    exact Nat.lt_irrefl _)

/-- A row is written whose copies agree on the role that is recorded for it. -/
theorem Agreement.save {s : State} (h : Agreement s) {t : Table User} {user : User}
    {role : Option String} (hent : Entered s.db.users user.id t) (huser : Agrees role user) :
    Agreement ⟨{ s.db with users := t.save user }, Function.update s.lastSet user.id role⟩ := by
  refine ⟨?_, ?_⟩
  · intro r hr
    obtain ⟨rfl, _⟩ | ⟨hr, hne⟩ := (Table.mem_save _ _ _).mp hr
    · simpa using huser
    · have hne : r.id ≠ user.id := hne
      simpa [hne] using h.agrees r (hent.others r hr hne)
  · intro u hu
    by_cases he : u = user.id
    · exact ⟨user, (Table.mem_save _ _ _).mpr (.inl ⟨rfl, hent.row⟩), he.symm⟩
    · simp only [ne_eq, he, not_false_eq_true, Function.update_of_ne] at hu
      obtain ⟨r, hr, hid⟩ := h.known u hu
      have hne : r.id ≠ user.id := fun hk => he (hid.symm.trans hk)
      exact ⟨r, (Table.mem_save _ _ _).mpr (.inr ⟨hent.kept r hr, hne⟩), hid⟩

/-- A new row has no role yet. -/
theorem Agreement.create {s : State} (h : Agreement s) {mk : Nat → User} (hid : ∀ id, (mk id).id = id)
    (hnew : ∀ id, Agrees none (mk id)) :
    Agreement ⟨{ s.db with users := s.db.users.create mk }, s.lastSet⟩ := by
  refine ⟨?_, ?_⟩
  · intro r hr
    obtain hr | rfl := (Table.mem_create _ _ hid r).mp hr
    · exact h.agrees r hr
    · rw [hid, h.fresh]
      exact hnew _
  · intro u hu
    obtain ⟨r, hr, hru⟩ := h.known u hu
    exact ⟨r, (Table.mem_create _ _ hid r).mpr (.inl hr), hru⟩

/-- An erasure takes the role in either copy. -/
theorem Agreement.process {s : State} (h : Agreement s) (self : ErasureRequest) (adminUser : UserId)
    (decisionReason token : List Char) (now : Instant) (hs : self.status ≠ .processed) :
    Agreement ⟨(process self adminUser decisionReason token now s.db).2,
      Function.update s.lastSet self.user none⟩ := by
  rw [Erasure.process, if_neg hs]
  refine ⟨?_, ?_⟩
  · intro r hr
    obtain ⟨o, ho, rfl⟩ := (Table.mem_update _ _ _ _).mp hr
    by_cases hu : o.id = self.user
    · simpa [hu, anonymous] using agrees_none rfl rfl rfl
    · simpa [hu] using h.agrees o ho
  · intro u hu
    by_cases he : u = self.user
    · simp [he] at hu
    · simp only [ne_eq, he, not_false_eq_true, Function.update_of_ne] at hu
      obtain ⟨r, hr, hid⟩ := h.known u hu
      refine ⟨r, (Table.mem_update _ _ _ _).mpr ⟨r, hr, ?_⟩, hid⟩
      rw [if_neg]
      simpa [hid] using he

theorem step_agreement {s : State} {op : Op} (hop : NoWriteFails s op) (h : Agreement s) :
    Agreement (step s op) := by
  cases op with
  | createUser env caller mayAdd payload =>
    simp only [step]
    split
    · next out db' heq =>
      obtain ⟨t, u, user, hent, hset, rfl, rfl⟩ := createUser_ok heq
      exact h.save hent (agrees_setUserRole hset)
    · next e db' heq =>
      obtain ⟨refused, rfl⟩ := hop e (by rw [heq])
      obtain rfl | ⟨username, email, password, rfl⟩ := createUser_http heq
      · exact h
      · exact h.create (fun _ => rfl) fun _ => agrees_none rfl rfl rfl
  | updateUser env caller mayChange userId payload =>
    simp only [step]
    split
    · next out db' heq =>
      obtain ⟨row, hrow, user, hid, rfl, rfl, hrole⟩ := updateUser_ok heq
      have hent : Entered s.db.users user.id s.db.users := entered_of_mem hrow hid.symm
      obtain ⟨hnone, hsame⟩ | ⟨role, u, u', hsome, hset, hsame⟩ := hrole
      · have hsaved := h.save hent ((h.agrees row hrow).congr hsame)
        rw [← hid, Function.update_eq_self] at hsaved
        simp only [hnone]
        exact hsaved
      · simp only [hsome]
        exact h.save hent ((agrees_setUserRole hset).congr hsame)
    · next e db' heq =>
      obtain ⟨refused, rfl⟩ := hop e (by rw [heq])
      rw [updateUser_http heq]
      exact h
  | ensureAdmin env environ =>
    simp only [step]
    split
    · next outcome db' heq =>
      obtain ⟨hnone, rfl⟩ | ⟨t, u, user, hsome, hent, hset, rfl⟩ := ensureAdmin_ok heq
      · simp only [hnone]
        exact h
      · simp only [hsome]
        exact h.save hent (agrees_setUserRole hset)
    · next e db' heq =>
      obtain ⟨refused, rfl⟩ := hop e (by rw [heq])
      obtain hwrite | hintegrity := ensureAdmin_error heq
      · cases hwrite
      · cases hintegrity
  | process self adminUser decisionReason token now =>
    simp only [step]
    split
    · exact h
    · next hs => exact h.process self adminUser decisionReason token now hs

/-! ## Runs -/

theorem start_agreement (db : Db) : Agreement (start db) :=
  ⟨fun user h => absurd h (Table.not_mem_empty user), fun _ h => absurd rfl h⟩

/-- The role in the groups, the one in the flags and the one that was last set agree, for
every user and after every run in which no write fails. -/
theorem roles_agree (db : Db) (ops : List Op) (h : Along step NoWriteFails (start db) ops) :
    ∀ user ∈ (run step (start db) ops).db.users,
      Agrees ((run step (start db) ops).lastSet user.id) user :=
  (run_invariant (fun _ _ hs hop => step_agreement hop hs) (start_agreement db) h).agrees

/-! ## An administrator who is demoted, and one who is erased -/

def environ : String → Option (List Char)
  | "KEYWARDEN_ADMIN_USERNAME" => some "root".toList
  | "KEYWARDEN_ADMIN_EMAIL" => some "root@example.org".toList
  | "KEYWARDEN_ADMIN_PASSWORD" => some "correct horse".toList
  | _ => none

def erasure : ErasureRequest where
  id := 1
  user := 2
  reason := []
  status := .pending
  requestedAt := 0
  decidedAt := none
  decidedBy := none
  decisionReason := []
  processedAt := none
  processedBy := none

def demotion : List Op := [
  .createUser workingEnv operator true ⟨"Alice@example.org".toList, "password".toList, "admin"⟩,
  .ensureAdmin workingEnv environ,
  .updateUser asciiEnv operator true 1 ⟨none, none, some "user", none⟩,
  .process erasure 1 [] "0f".toList 100]

theorem answered_of_isOk {α : Type} {result : Except Raised α × Db}
    (h : result.1.toBool = true) : Answered result := by
  intro e he
  rw [he] at h
  cases h

theorem demotion_noWriteFails : Along step NoWriteFails (start {}) demotion :=
  ⟨answered_of_isOk (by decide +kernel), answered_of_isOk (by decide +kernel),
    answered_of_isOk (by decide +kernel), trivial, trivial⟩

theorem roles_agree_demotion : ∃ user ∈ (run step (start {}) demotion).db.users,
    user.id = 1 ∧ Agrees (some "user") user := by
  have hthere : ∃ user ∈ (run step (start {}) demotion).db.users, user.id = 1 := by decide +kernel
  have hset : (run step (start {}) demotion).lastSet 1 = some "user" := by decide +kernel
  obtain ⟨user, huser, hid⟩ := hthere
  have hagrees := roles_agree {} demotion demotion_noWriteFails user huser
  rw [hid, hset] at hagrees
  exact ⟨user, huser, hid, hagrees⟩

end Keywarden.RoleAgreement
