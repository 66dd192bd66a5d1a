import Keywarden.KeyRun
import Keywarden.Users

/-!
# What a failed call leaves of a user

`create_user` inserts the row before it knows that the role is a valid one, and
`update_user` writes the groups before the row is saved. Neither opens a transaction,
so what was written stays when the rest fails.
-/
namespace Keywarden.UserErrors

open Rows Text Keys Username Authorization Users

/-! ## An update -/

/-- A role is set that changes the groups of the user. -/
def Regroups (T : CaseTable) (role : Option String) (user : User) : Prop :=
  ∃ r, role = some r ∧ normalizeRole T r ∈ roleOrder ∧
    insert (normalizeRole T r) (user.groups.filter fun group => group ∉ roleOrder) ≠ user.groups

/-- No other user has the e-mail. -/
def EmailFree (env : UserEnv) (email : Option (List Char)) (user : User) (db : Db) : Prop :=
  ∀ e, email = some e → ∀ other ∈ db.users,
    env.iexact other.email (lower env.caseTable (strip isSpace e)) = true → other.id = user.id

/-- The user under the e-mail. -/
def underEmail (T : CaseTable) (email : Option (List Char)) (user : User) : User :=
  match email with
  | none => user
  | some e => { user with email := lower T (strip isSpace e), username := lower T (strip isSpace e) }

/-- The row can be saved: the database takes it, and nobody else has the username. -/
def Saves (env : UserEnv) (user : User) (db : Db) : Prop :=
  (env.writes && userFits user) = true ∧
    ∀ other ∈ db.users, other.username = user.username → other.id = user.id

/-- The call gets past its checks with a role that changes the groups, and the row cannot
be saved. -/
structure HalfApplied (env : UserEnv) (caller : Caller) (mayChange : Bool) (payload : UserUpdateIn)
    (user : User) (db : Db) : Prop where
  permitted : (caller.isAuthenticated && mayChange) = true
  emailFree : EmailFree env payload.email user db
  regroups : Regroups env.caseTable payload.role user
  notSaved : ¬ Saves env (underEmail env.caseTable payload.email user) db

@[simp] theorem underEmail_groups (T : CaseTable) (email : Option (List Char)) (user : User) :
    (underEmail T email user).groups = user.groups := by
  cases email <;> rfl

@[simp] theorem underEmail_id (T : CaseTable) (email : Option (List Char)) (user : User) :
    (underEmail T email user).id = user.id := by
  cases email <;> rfl

@[simp] theorem changePassword_groups (env : UserEnv) (password : Option (List Char)) (user : User) :
    (changePassword env password user).groups = user.groups := by
  cases password <;> rfl

/-- The columns that say whether a row can be saved. -/
structure SameName (user other : User) : Prop where
  id : user.id = other.id
  username : user.username = other.username
  email : user.email = other.email

theorem changePassword_sameName (env : UserEnv) (password : Option (List Char)) (user : User) :
    SameName (changePassword env password user) user := by
  cases password <;> exact ⟨rfl, rfl, rfl⟩

/-- No other row is selected. -/
theorem any_other_iff (t : Table User) (p : User → Bool) (id : UserId) :
    (t.any fun other => p other && decide (other.id ≠ id)) = false ↔
      ∀ other ∈ t, p other = true → other.id = id := by
  rw [← Bool.not_eq_true, Table.any_iff]
  simp only [ne_eq, Bool.and_eq_true, decide_eq_true_eq, not_exists, not_and, not_not]

theorem changeEmail_of_free {env : UserEnv} {email : Option (List Char)} {user : User} {db : Db}
    (h : EmailFree env email user db) :
    changeEmail env email db user = .ok (underEmail env.caseTable email user) := by
  cases email with
  | none => rfl
  | some e =>
    have hnone := (any_other_iff db.users _ user.id).mpr (h e rfl)
    simp only [changeEmail, underEmail, hnone, Bool.false_eq_true, if_false]

theorem free_of_changeEmail {env : UserEnv} {email : Option (List Char)} {user user' : User} {db : Db}
    (h : changeEmail env email db user = .ok user') :
    EmailFree env email user db ∧ user' = underEmail env.caseTable email user := by
  suffices hfree : EmailFree env email user db by
    rw [changeEmail_of_free hfree] at h
    cases h
    exact ⟨hfree, rfl⟩
  intro e he
  rw [← any_other_iff db.users _ user.id]
  simp only [changeEmail, he] at h
  split at h
  · cases h
  · next hany => exact eq_false_of_ne_true hany

theorem saves_congr {env : UserEnv} {user other : User} {db : Db} (h : SameName user other) :
    Saves env user db ↔ Saves env other db := by
  unfold Saves userFits
  rw [h.id, h.username, h.email]

/-- The database once the groups of the instance are written. -/
def grouped (user : User) (db : Db) : Db :=
  { db with users := db.users.update (fun other => other.id = user.id) (regrouped user.groups) }

theorem saves_grouped {env : UserEnv} {user final : User} {db : Db} :
    Saves env user (grouped final db) ↔ Saves env user db := by
  refine and_congr Iff.rfl ⟨fun h other hother hname => ?_, fun h other hother hname => ?_⟩
  · have hsame := h _ ((Table.mem_update _ _ _ _).mpr ⟨other, hother, rfl⟩)
    split at hsame
    · exact hsame hname
    · exact hsame hname
  · obtain ⟨o, ho, rfl⟩ := (Table.mem_update _ _ _ _).mp hother
    have hsame : ∀ u : User, (u = (regrouped final.groups).apply o ∨ u = o) → u.username = user.username →
        u.id = user.id := by
      rintro u (rfl | rfl) hname
      · exact h o ho hname
      · exact h u ho hname
    refine hsame _ ?_ hname
    split
    · exact .inl rfl
    · exact .inr rfl

theorem saveUser_of_saves {env : UserEnv} {user : User} {db : Db} (h : Saves env user db) :
    saveUser env user db = (.ok (), { db with users := db.users.save user }) := by
  have hnone := (any_other_iff db.users (fun other => other.username = user.username) user.id).mpr
    (by simpa using h.2)
  simp only [saveUser, h.1, hnone, Bool.not_true, Bool.false_eq_true, if_false]

theorem saveUser_of_not_saves {env : UserEnv} {user : User} {db : Db} (h : ¬ Saves env user db) :
    ∃ e, saveUser env user db = (.error e, db) := by
  unfold saveUser
  split
  · exact ⟨_, rfl⟩
  · next hwrites =>
    split
    · exact ⟨_, rfl⟩
    · next hany =>
      have hnone := (any_other_iff db.users (fun other => other.username = user.username) user.id).mp
        (eq_false_of_ne_true hany)
      exact absurd ⟨by simpa using hwrites, by simpa using hnone⟩ h

/-- The groups in the database are those of the instance once the role is set. -/
theorem regroups_of_changeRole {env : UserEnv} {role : Option String} {user user' : User}
    (h : changeRole env role user = .ok user') (hne : user'.groups ≠ user.groups) :
    Regroups env.caseTable role user := by
  obtain ⟨_, rfl⟩ | ⟨r, hr, hset⟩ := changeRole_ok h
  · exact absurd rfl hne
  · obtain ⟨hmem, rfl⟩ := setUserRole_ok hset
    exact ⟨r, hr, hmem, hne⟩

theorem changeRole_sameName {env : UserEnv} {role : Option String} {user user' : User}
    (h : changeRole env role user = .ok user') : SameName user' user := by
  obtain ⟨_, rfl⟩ | ⟨r, _, hset⟩ := changeRole_ok h
  · exact ⟨rfl, rfl, rfl⟩
  · obtain ⟨_, rfl⟩ := setUserRole_ok hset
    exact ⟨rfl, rfl, rfl⟩

theorem changeRole_of_regroups {env : UserEnv} {role : Option String} {user : User}
    (h : Regroups env.caseTable role user) :
    ∃ user', changeRole env role user = .ok user' ∧ user'.groups ≠ user.groups := by
  obtain ⟨r, rfl, hmem, hne⟩ := h
  simp only [changeRole, setUserRole, hmem, not_true_eq_false, if_false]
  exact ⟨_, rfl, hne⟩

theorem Regroups.congr {T : CaseTable} {role : Option String} {user other : User}
    (h : Regroups T role user) (hgroups : other.groups = user.groups) : Regroups T role other := by
  unfold Regroups at h ⊢
  rw [hgroups]
  exact h

/-- The groups written for the row of a user do not show exactly when the user has them. -/
theorem grouped_users_iff {db : Db} {user final : User} (h : user ∈ db.users)
    (hid : final.id = user.id) : (grouped final db).users = db.users ↔ final.groups = user.groups := by
  rw [grouped, Table.update_eq_self_iff]
  constructor
  · intro hall
    have hrow := congrArg User.groups (hall user h (by simpa using hid.symm))
    exact hrow
  · intro hgroups r hr hp
    have hr : r = user := Table.eq_of_key _ hr h ((of_decide_eq_true hp).trans hid)
    rw [hr, hgroups]
    rfl

/-- The instance after the checks and before the role. -/
def named (env : UserEnv) (payload : UserUpdateIn) (user : User) : User :=
  changePassword env payload.password (underEmail env.caseTable payload.email user)

@[simp] theorem named_groups (env : UserEnv) (payload : UserUpdateIn) (user : User) :
    (named env payload user).groups = user.groups := by
  simp [named]

/-- What is saved carries the name and the e-mail of the payload. -/
theorem saves_final_iff {env : UserEnv} {payload : UserUpdateIn} {user final : User} {db : Db}
    (h : changeRole env payload.role (named env payload user) = .ok final) :
    Saves env { final with isActive := payload.isActive.getD final.isActive } (grouped final db) ↔
      Saves env (underEmail env.caseTable payload.email user) db := by
  obtain ⟨hid, hname, hemail⟩ := changeRole_sameName h
  obtain ⟨hid', hname', hemail'⟩ := changePassword_sameName env payload.password
    (underEmail env.caseTable payload.email user)
  rw [saves_grouped]
  exact saves_congr ⟨hid.trans hid', hname.trans hname', hemail.trans hemail'⟩

theorem updateUser_of_checks {env : UserEnv} {caller : Caller} {mayChange : Bool} {userId : Int}
    {payload : UserUpdateIn} {db : Db} {user final : User}
    (hperm : (caller.isAuthenticated && mayChange) = true)
    (hgiven : ¬ (payload.email = none ∧ payload.password = none ∧ payload.role = none ∧
      payload.isActive = none))
    (hfind : findUser userId db = some user) (hfree : EmailFree env payload.email user db)
    (hrole : changeRole env payload.role (named env payload user) = .ok final) :
    updateUser env caller mayChange userId payload db =
      (saveUser env { final with isActive := payload.isActive.getD final.isActive }).map
        (fun _ => detailOut { final with isActive := payload.isActive.getD final.isActive })
        (grouped final db) := by
  rw [named] at hrole
  simp only [updateUser, hperm, Bool.not_true, Bool.false_eq_true, if_false, if_neg hgiven, hfind,
    changeEmail_of_free hfree, hrole, grouped]

/-- An update that fails has written nothing, or the groups and nothing else. -/
theorem updateUser_error {env : UserEnv} {caller : Caller} {mayChange : Bool} {userId : Int}
    {payload : UserUpdateIn} {db db' : Db} {e : Raised}
    (h : updateUser env caller mayChange userId payload db = (.error e, db')) :
    db' = db ∨ ∃ user final, (caller.isAuthenticated && mayChange) = true ∧
      findUser userId db = some user ∧ EmailFree env payload.email user db ∧
      changeRole env payload.role (named env payload user) = .ok final ∧
      ¬ Saves env (underEmail env.caseTable payload.email user) db ∧ db' = grouped final db := by
  unfold updateUser at h
  split at h
  · cases h; exact .inl rfl
  next hperm =>
  split at h
  · cases h; exact .inl rfl
  split at h
  · cases h; exact .inl rfl
  next user hfind =>
  split at h
  · cases h; exact .inl rfl
  next renamed hrenamed =>
  obtain ⟨hfree, rfl⟩ := free_of_changeEmail hrenamed
  split at h
  · cases h; exact .inl rfl
  next final hrole =>
  have herror := Call.map_error h
  refine .inr ⟨user, final, by simpa using hperm, hfind, hfree, hrole, ?_, (saveUser_error herror).2⟩
  intro hsaves
  have hok := saveUser_of_saves ((saves_final_iff hrole).mpr hsaves)
  rw [grouped, herror] at hok
  cases hok

/-- A call that ends in an error leaves all users as they were, unless the groups were
written and the row could not be saved. -/
theorem unchanged_iff (env : UserEnv) (caller : Caller) (mayChange : Bool) (userId : Int)
    (payload : UserUpdateIn) (db : Db) :
    (∀ e, (updateUser env caller mayChange userId payload db).1 = .error e →
        (updateUser env caller mayChange userId payload db).2.users = db.users) ↔
      ∀ user, findUser userId db = some user →
        ¬ HalfApplied env caller mayChange payload user db := by
  constructor
  · intro h user hfind ⟨hperm, hfree, hregroups, hnot⟩
    have hgiven : ¬ (payload.email = none ∧ payload.password = none ∧ payload.role = none ∧
        payload.isActive = none) := by
      obtain ⟨r, hr, _⟩ := hregroups
      simp [hr]
    obtain ⟨final, hrole, hgroups⟩ := changeRole_of_regroups
      (hregroups.congr (named_groups env payload user))
    have hcall := updateUser_of_checks hperm hgiven hfind hfree hrole
    obtain ⟨e, herror⟩ := saveUser_of_not_saves (mt (saves_final_iff hrole).mp hnot)
    rw [Call.map, herror] at hcall
    have hsame := h e (by rw [hcall]; rfl)
    rw [hcall] at hsame
    have hid : final.id = user.id := (changeRole_sameName hrole).id.trans
      ((changePassword_sameName _ _ _).id.trans (underEmail_id _ _ _))
    rw [named_groups] at hgroups
    exact hgroups ((grouped_users_iff (findUser_eq_some hfind).1 hid).mp hsame)
  · intro h e he
    rcases hcall : updateUser env caller mayChange userId payload db with ⟨result, db'⟩
    rw [hcall] at he
    cases he
    obtain rfl | ⟨user, final, hperm, hfind, hfree, hrole, hnot, rfl⟩ := updateUser_error hcall
    · rfl
    · have hid : final.id = user.id := (changeRole_sameName hrole).id.trans
        ((changePassword_sameName _ _ _).id.trans (underEmail_id _ _ _))
      rw [grouped_users_iff (findUser_eq_some hfind).1 hid]
      by_contra hne
      have hregroups := regroups_of_changeRole hrole (by rw [named_groups]; exact hne)
      exact h user hfind ⟨hperm, hfree, hregroups.congr (named_groups env payload user).symm, hnot⟩

/-- An address of 166 characters, all of whose labels are short enough. -/
def longEmail : List Char :=
  "alice@".toList ++ List.replicate 63 'a' ++ '.' :: List.replicate 63 'b' ++ '.' ::
    List.replicate 28 'c' ++ ".org".toList

/-- A promotion together with an e-mail that does not fit the username column. -/
def promotion : UserUpdateIn := ⟨some longEmail, none, some "administrator", none⟩

set_option maxRecDepth 4000 in
/-- The call fails, and the user is in the group of the administrators. -/
theorem promoted_all_the_same :
    ¬ ∀ (env : UserEnv) (caller : Caller) (mayChange : Bool) (userId : Int) (payload : UserUpdateIn)
      (db : Db) (e : Raised), (updateUser env caller mayChange userId payload db).1 = .error e →
        (updateUser env caller mayChange userId payload db).2.users = db.users := by
  intro h
  have hfails : (updateUser asciiEnv operator true 1 promotion KeyRun.oneUser).1.toBool = false := by
    decide +kernel
  obtain ⟨e, he⟩ := error_of_toBool hfails
  have hsame := h asciiEnv operator true 1 promotion KeyRun.oneUser e he
  have hgroups : (updateUser asciiEnv operator true 1 promotion KeyRun.oneUser).2.users.toList.map
      User.groups = [{"administrator"}] := by decide +kernel
  rw [hsame] at hgroups
  exact absurd hgroups (by decide +kernel)

/-! ## A creation -/

/-- The user under the e-mail that the call inserts. -/
def created (env : CreateEnv) (payload : UserCreateIn) : Nat → User :=
  newUser (lower env.caseTable (strip isSpace payload.email))
    (lower env.caseTable (strip isSpace payload.email)) (env.makePassword payload.password) false

/-- The row is inserted: the caller may add users, the e-mail and the username are free, and
the database takes the row. -/
structure Inserted (env : CreateEnv) (caller : Caller) (mayAdd : Bool) (payload : UserCreateIn)
    (db : Db) : Prop where
  permitted : (caller.isAuthenticated && mayAdd) = true
  emailFree : ∀ other ∈ db.users,
    env.iexact other.email (lower env.caseTable (strip isSpace payload.email)) = false
  stored : (env.writes && userFits (created env payload db.users.fresh)) = true
  usernameFree : ∀ other ∈ db.users,
    other.username ≠ lower env.caseTable (strip isSpace payload.email)

/-- What comes after the insertion succeeds: the role is valid, and both writes go through. -/
structure Completed (env : CreateEnv) (payload : UserCreateIn) : Prop where
  role : normalizeRole env.caseTable payload.role ∈ roleOrder
  groups : env.writesGroups = true
  row : env.writesRow = true

theorem createUser_of_inserted {env : CreateEnv} {caller : Caller} {mayAdd : Bool}
    {payload : UserCreateIn} {db : Db} (h : Inserted env caller mayAdd payload db) :
    createUser env caller mayAdd payload db =
      (((giveRole env payload.role (created env payload db.users.fresh)).bind (saveAgain env)).map
        detailOut) { db with users := db.users.create (created env payload) } := by
  have hemail : (db.users.any fun other => env.iexact other.email
      (lower env.caseTable (strip isSpace payload.email))) = false := by
    rw [← Bool.not_eq_true, Table.any_iff]
    rintro ⟨other, hother, hmatch⟩
    rw [h.emailFree other hother] at hmatch
    cases hmatch
  have hname : (db.users.any fun other =>
      other.username = (created env payload db.users.fresh).username) = false := by
    rw [← Bool.not_eq_true, Table.any_iff]
    rintro ⟨other, hother, hmatch⟩
    exact h.usernameFree other hother (of_decide_eq_true hmatch)
  have hinsert : insertUser env.toUserEnv (created env payload) db =
      (.ok (created env payload db.users.fresh),
        { db with users := db.users.create (created env payload) }) := by
    simp only [insertUser, h.stored, hname, Bool.not_true, Bool.false_eq_true, if_false]
  have hcall : createUser env caller mayAdd payload db =
      ((((insertUser env.toUserEnv (created env payload)).mapError insertionFailed).bind fun user =>
        (giveRole env payload.role user).bind (saveAgain env)).map detailOut) db := by
    simp only [createUser, h.permitted, hemail, Bool.not_true, Bool.false_eq_true, if_false, created]
  rw [hcall, Call.map, Call.bind, Call.mapError, hinsert]
  rfl

theorem createUser_of_not_inserted {env : CreateEnv} {caller : Caller} {mayAdd : Bool}
    {payload : UserCreateIn} {db : Db} (h : ¬ Inserted env caller mayAdd payload db) :
    (createUser env caller mayAdd payload db).2 = db := by
  unfold createUser
  split
  · rfl
  next hperm =>
  simp only
  split
  · rfl
  next hemail =>
  have hinsert : ∃ e, insertUser env.toUserEnv (created env payload) db = (.error e, db) := by
    unfold insertUser
    simp only
    split
    · exact ⟨_, rfl⟩
    next hstored =>
    split
    · exact ⟨_, rfl⟩
    next hname =>
    refine absurd ⟨by simpa using hperm, fun other hother => ?_, by simpa using hstored,
      fun other hother hsame => ?_⟩ h
    · by_contra hmatch
      exact hemail ((Table.any_iff _ _).mpr ⟨other, hother, by simpa using hmatch⟩)
    · exact hname ((Table.any_iff _ _).mpr ⟨other, hother, decide_eq_true hsame⟩)
  obtain ⟨e, he⟩ := hinsert
  change ((((insertUser env.toUserEnv (created env payload)).mapError insertionFailed).bind fun user =>
        (giveRole env payload.role user).bind (saveAgain env)).map detailOut db).2 = db
  rw [Call.map, Call.bind, Call.mapError, he]
  rfl

/-- What comes after the insertion. -/
def completing (env : CreateEnv) (payload : UserCreateIn) (user : User) : Call User :=
  (giveRole env payload.role user).bind (saveAgain env)

/-- The row of the user is there from the insertion on. -/
theorem completing_error {env : CreateEnv} {payload : UserCreateIn} {user : User} {db db' : Db}
    {e : Raised} {id : UserId} (hrow : ∃ row ∈ db.users, row.id = id)
    (h : completing env payload user db = (.error e, db')) : ∃ row ∈ db'.users, row.id = id := by
  obtain hrole | ⟨u, db₁, hrole, hsave⟩ := Call.bind_error h
  · unfold giveRole writeGroups at hrole
    split at hrole
    · cases hrole
      exact hrow
    · split at hrole
      · cases hrole
      · cases hrole
        exact hrow
  · obtain ⟨_, rfl⟩ := giveRole_ok hrole
    rw [(saveUser_error (Call.map_error hsave)).2]
    obtain ⟨row, hmem, hid⟩ := hrow
    refine ⟨_, (Table.mem_update _ _ _ _).mpr ⟨row, hmem, rfl⟩, ?_⟩
    split
    · exact hid
    · exact hid

theorem completed_of_ok {env : CreateEnv} {payload : UserCreateIn} {user user' : User} {db db' : Db}
    (h : completing env payload user db = (.ok user', db')) : Completed env payload := by
  obtain ⟨u, db₁, hrole, hsave⟩ := Call.bind_ok h
  obtain ⟨hset, rfl⟩ := giveRole_ok hrole
  refine ⟨(setUserRole_ok hset).1, ?_, ?_⟩
  · simp only [giveRole, hset, writeGroups] at hrole
    split at hrole
    · next hgroups => exact hgroups
    · cases hrole
  · obtain ⟨_, hsave, _⟩ := Call.map_ok hsave
    by_contra hrow
    have hnot : ∀ db, ¬ Saves { env.toUserEnv with writes := env.writesRow } u db :=
      fun _ hsaves => hrow ((Bool.and_eq_true _ _).mp hsaves.1).1
    obtain ⟨e, he⟩ := saveUser_of_not_saves (hnot _)
    rw [he] at hsave
    cases hsave

theorem completing_ok {env : CreateEnv} {caller : Caller} {mayAdd : Bool} {payload : UserCreateIn}
    {db : Db} (h : Inserted env caller mayAdd payload db) (hc : Completed env payload) :
    ∃ user db', completing env payload (created env payload db.users.fresh)
      { db with users := db.users.create (created env payload) } = (.ok user, db') := by
  have hset : ∃ user, setUserRole env.caseTable payload.role (created env payload db.users.fresh) =
      .ok user := by
    simp only [setUserRole, hc.role, not_true_eq_false, if_false]
    exact ⟨_, rfl⟩
  obtain ⟨user, hset⟩ := hset
  have hsame : SameName user (created env payload db.users.fresh) := by
    obtain ⟨_, rfl⟩ := setUserRole_ok hset
    exact ⟨rfl, rfl, rfl⟩
  have hsaves : Saves { env.toUserEnv with writes := env.writesRow } user
      (grouped user { db with users := db.users.create (created env payload) }) := by
    rw [saves_grouped, saves_congr hsame]
    refine ⟨?_, fun other hother hname => ?_⟩
    · rw [Bool.and_eq_true]
      exact ⟨hc.row, ((Bool.and_eq_true _ _).mp h.stored).2⟩
    · obtain hother | rfl := (Table.mem_create _ _ (fun _ => rfl) other).mp hother
      · exact absurd hname (h.usernameFree other hother)
      · rfl
  have hsaved := saveUser_of_saves hsaves
  rw [grouped] at hsaved
  simp only [completing, Call.bind, giveRole, hset, writeGroups, hc.groups, if_true, saveAgain,
    Call.map, hsaved, Except.map]
  exact ⟨_, _, rfl⟩

/-- A call that ends in an error adds no user, exactly if everything after the insertion
succeeds when there is one. -/
theorem noneAdded_iff (env : CreateEnv) (caller : Caller) (mayAdd : Bool) (payload : UserCreateIn)
    (db : Db) :
    (∀ e, (createUser env caller mayAdd payload db).1 = .error e →
        (createUser env caller mayAdd payload db).2.users = db.users) ↔
      (Inserted env caller mayAdd payload db → Completed env payload) := by
  constructor
  · intro h hins
    have hcall : createUser env caller mayAdd payload db =
        ((completing env payload (created env payload db.users.fresh)).map detailOut)
          { db with users := db.users.create (created env payload) } := createUser_of_inserted hins
    rcases hrest : completing env payload (created env payload db.users.fresh)
        { db with users := db.users.create (created env payload) } with ⟨e | user, db'⟩
    · rw [Call.map, hrest] at hcall
      have hsame := h e (by rw [hcall]; rfl)
      rw [hcall] at hsame
      have hentered : Entered db.users db.users.fresh (db.users.create (created env payload)) :=
        entered_create db.users fun _ => rfl
      obtain ⟨row, hrow, hid⟩ := completing_error hentered.row hrest
      have hlt := Table.key_lt_fresh db.users (hsame ▸ hrow)
      rw [show Keyed.key row = row.id from rfl, hid] at hlt
      exact absurd hlt (Nat.lt_irrefl _)
    · exact completed_of_ok hrest
  · intro h e he
    by_cases hins : Inserted env caller mayAdd payload db
    · obtain ⟨user, db', hrest⟩ := completing_ok hins (h hins)
      rw [completing] at hrest
      rw [createUser_of_inserted hins, Call.map, hrest] at he
      cases he
    · rw [createUser_of_not_inserted hins]

/-- The schema lets the role through, and the user is left without one. -/
theorem operator_added :
    ¬ ∀ (env : CreateEnv) (caller : Caller) (mayAdd : Bool) (payload : UserCreateIn) (db : Db)
      (e : Raised), (createUser env caller mayAdd payload db).1 = .error e →
        (createUser env caller mayAdd payload db).2.users = db.users := by
  intro h
  let payload : UserCreateIn := ⟨"alice@example.org".toList, "password".toList, "operator"⟩
  have hfails : (createUser workingEnv operator true payload {}).1.toBool = false := by
    decide +kernel
  obtain ⟨e, he⟩ := error_of_toBool hfails
  have hids : (createUser workingEnv operator true payload {}).2.users.toList.map User.id = [1] := by
    decide +kernel
  rw [h workingEnv operator true payload {} e he] at hids
  exact absurd hids (by decide)

end Keywarden.UserErrors
