import Keywarden.Authorization
import Keywarden.Keys

/-!
# Creating and changing a user

`create_user` and `update_user` of the users router, and the command `ensure_admin`.
The e-mail is the username too, so a new e-mail renames the user. The role is written
to the groups before the row is saved, and stays there when saving fails; a user that
is created is saved before the role is looked at.
-/
namespace Keywarden.Users

open Rows Text Keys Username Authorization

/-- The payload, as `EmailStr` and the length checks let it through. -/
structure UserUpdateIn where
  email : Option (List Char)
  password : Option (List Char)
  role : Option String
  isActive : Option Bool
  deriving DecidableEq, Repr

structure UserDetailOut where
  id : UserId
  email : List Char
  role : String
  isActive : Bool
  deriving DecidableEq, Repr

/-- `email__iexact` goes by the collation of the database, and a password is hashed with
a random salt. `writes` is whether the row of the user can be written. -/
structure UserEnv where
  caseTable : CaseTable
  iexact : List Char → List Char → Bool
  makePassword : List Char → String
  writes : Bool

def normalizeRole (T : CaseTable) (role : String) : String :=
  let normalized := String.ofList (lower T (strip isSpace role.toList))
  if normalized = "admin" then roleAdmin else normalized

/-- A user object is always authenticated. -/
def getUserRole (user : User) : String :=
  if user.isSuperuser then roleAdmin
  else (roleOrder.find? fun role => role ∈ user.groups).getD roleUser

def setUserRole (T : CaseTable) (role : String) (user : User) : Except String User :=
  let canonical := normalizeRole T role
  if canonical ∉ roleOrder then .error ("Invalid role: " ++ role)
  else .ok { user with
    groups := insert canonical (user.groups.filter fun group => group ∉ roleOrder)
    isStaff := canonical = roleAdmin
    isSuperuser := canonical = roleAdmin }

def changeEmail (env : UserEnv) (email : Option (List Char)) (db : Db) (user : User) :
    Except HttpError User :=
  match email with
  | none => .ok user
  | some email =>
    let email := lower env.caseTable (strip isSpace email)
    if db.users.any fun other => env.iexact other.email email && other.id ≠ user.id then
      .error ⟨422, some "email", "Email already exists."⟩
    else .ok { user with email := email, username := email }

def changePassword (env : UserEnv) (password : Option (List Char)) (user : User) : User :=
  match password with
  | none => user
  | some password => { user with password := some (env.makePassword password) }

def changeRole (env : UserEnv) (role : Option String) (user : User) : Except HttpError User :=
  match role with
  | none => .ok user
  | some role =>
    match setUserRole env.caseTable role user with
    | .error _ => .error ⟨422, some "role", "Invalid role."⟩
    | .ok user => .ok user

/-- `user.groups.remove(…)` and `user.groups.add(…)`. -/
def regrouped (groups : Finset String) : Table.Edit User where
  apply user := { user with groups := groups }
  key_apply _ := rfl

def userFits (user : User) : Bool := fitsColumn 150 user.username && fitsColumn 254 user.email

/-- `user.save()`; the username is unique. -/
def saveUser (env : UserEnv) (user : User) : Call Unit := fun db =>
  if !(env.writes && userFits user) then (.error writeFailed, db)
  else if db.users.any fun other => other.username = user.username && other.id ≠ user.id then
    (.error .integrity, db)
  else (.ok (), { db with users := db.users.save user })

def detailOut (user : User) : UserDetailOut where
  id := user.id
  email := user.email
  role := getUserRole user
  isActive := user.isActive

/-- `mayChange` is whether the caller has `auth.change_user`. -/
def updateUser (env : UserEnv) (caller : Caller) (mayChange : Bool) (userId : Int)
    (payload : UserUpdateIn) : Call UserDetailOut := fun db =>
  if !(caller.isAuthenticated && mayChange) then (.error (.http forbidden), db)
  else if payload.email = none ∧ payload.password = none ∧ payload.role = none ∧
      payload.isActive = none then (.error (.http noFields), db)
  else match findUser userId db with
    | none => (.error (.http notFound), db)
    | some user =>
      match changeEmail env payload.email db user with
      | .error e => (.error (.http e), db)
      | .ok user =>
        match changeRole env payload.role (changePassword env payload.password user) with
        | .error e => (.error (.http e), db)
        | .ok user =>
          let user := { user with isActive := payload.isActive.getD user.isActive }
          (saveUser env user).map (fun _ => detailOut user) { db with
            users := db.users.update (fun other => other.id = user.id) (regrouped user.groups) }

/-! ## Creation -/

structure UserCreateIn where
  email : List Char
  password : List Char
  role : String
  deriving DecidableEq, Repr

/-- `writes` is whether the new row can be inserted; what is written after it are the
groups of the user and the row once more. -/
structure CreateEnv extends UserEnv where
  writesGroups : Bool
  writesRow : Bool

def newUser (username email : List Char) (password : String) (isAdmin : Bool) (id : Nat) : User where
  id := id
  username := username
  email := email
  firstName := []
  lastName := []
  password := some password
  isActive := true
  isStaff := isAdmin
  isSuperuser := isAdmin
  lastLogin := none
  groups := ∅
  userPermissions := ∅

/-- `user.save()` on a user without an id. -/
def insertUser (env : UserEnv) (mk : Nat → User) : Call User := fun db =>
  let user := mk db.users.fresh
  if !(env.writes && userFits user) then (.error writeFailed, db)
  else if db.users.any fun other => other.username = user.username then (.error .integrity, db)
  else (.ok user, { db with users := db.users.create mk })

/-- The groups of the instance in memory, in the database. -/
def writeGroups (env : CreateEnv) (user : User) : Call User := fun db =>
  if env.writesGroups then
    (.ok user, { db with
      users := db.users.update (fun other => other.id = user.id) (regrouped user.groups) })
  else (.error writeFailed, db)

/-- The last `user.save()`. -/
def saveAgain (env : CreateEnv) (user : User) : Call User := fun db =>
  ((saveUser { env.toUserEnv with writes := env.writesRow } user).map fun _ => user) db

def emailExists : HttpError := ⟨422, some "email", "Email already exists."⟩
def invalidRole : HttpError := ⟨422, some "role", "Invalid role."⟩

/-- `except IntegrityError`. -/
def insertionFailed : Raised → Raised
  | .integrity => .http emailExists
  | e => e

/-- The role of a user that is in the database already, up to the last save. -/
def giveRole (env : CreateEnv) (role : String) (user : User) : Call User := fun db =>
  match setUserRole env.caseTable role user with
  | .error _ => (.error (.http invalidRole), db)
  | .ok user => writeGroups env user db

/-- `mayAdd` is whether the caller has `auth.add_user`. -/
def createUser (env : CreateEnv) (caller : Caller) (mayAdd : Bool) (payload : UserCreateIn) :
    Call UserDetailOut := fun db =>
  if !(caller.isAuthenticated && mayAdd) then (.error (.http forbidden), db)
  else
    let email := lower env.caseTable (strip isSpace payload.email)
    if db.users.any fun other => env.iexact other.email email then (.error (.http emailExists), db)
    else
      ((((insertUser env.toUserEnv (newUser email email (env.makePassword payload.password)
        false)).mapError insertionFailed).bind fun user =>
          (giveRole env payload.role user).bind (saveAgain env)).map detailOut) db

/-! ## The command `ensure_admin` -/

/-- `os.getenv(name) or os.getenv(fallback)`; a variable that is not set is empty. -/
def getenv (environ : String → Option (List Char)) (name fallback : String) : List Char :=
  let value := (environ name).getD []
  if value ≠ [] then value else (environ fallback).getD []

/-- What the command prints, and the user it is about. -/
inductive AdminOutcome where
  | skipping
  | created : User → AdminOutcome
  | updated : User → AdminOutcome
  | alreadyPresent : User → AdminOutcome
  deriving DecidableEq

def AdminOutcome.user : AdminOutcome → Option User
  | .skipping => none
  | .created user | .updated user | .alreadyPresent user => some user

def ensureAdmin (env : CreateEnv) (environ : String → Option (List Char)) : Call AdminOutcome :=
  fun db =>
    let username := getenv environ "DJANGO_SUPERUSER_USERNAME" "KEYWARDEN_ADMIN_USERNAME"
    let email := getenv environ "DJANGO_SUPERUSER_EMAIL" "KEYWARDEN_ADMIN_EMAIL"
    let password := getenv environ "DJANGO_SUPERUSER_PASSWORD" "KEYWARDEN_ADMIN_PASSWORD"
    if username = [] ∨ email = [] ∨ password = [] then (.ok .skipping, db)
    else match (db.users.filter fun user => user.username = username).head? with
      | none =>
        (((insertUser env.toUserEnv (newUser username email "" true)).bind fun user =>
          (giveRole env roleAdmin { user with password := some (env.makePassword password) }).bind
            (saveAgain env)).map .created) db
      | some row =>
        let user := { row with email := email, isStaff := true, isSuperuser := true }
        let changed := row.email ≠ email || !row.isStaff || !row.isSuperuser
        if changed then (((giveRole env roleAdmin user).bind (saveAgain env)).map .updated) db
        else ((giveRole env roleAdmin user).map .alreadyPresent) db

theorem saveUser_frame (env : UserEnv) (user : User) (db : Db) :
    ∃ t, (saveUser env user db).2 = { db with users := t } := by
  unfold saveUser
  split
  · exact ⟨_, rfl⟩
  · split <;> exact ⟨_, rfl⟩

/-- Only users change. -/
theorem updateUser_frame (env : UserEnv) (caller : Caller) (mayChange : Bool) (userId : Int)
    (payload : UserUpdateIn) (db : Db) :
    ∃ t, (updateUser env caller mayChange userId payload db).2 = { db with users := t } := by
  unfold updateUser
  split
  · exact ⟨_, rfl⟩
  split
  · exact ⟨_, rfl⟩
  split
  · exact ⟨_, rfl⟩
  · next user _ =>
    split
    · exact ⟨_, rfl⟩
    · split
      · exact ⟨_, rfl⟩
      · simp only [Call.map_db]
        exact saveUser_frame env _ _

/-! ## What a role and a creation write -/

theorem setUserRole_ok {T : CaseTable} {role : String} {user user' : User}
    (h : setUserRole T role user = .ok user') : normalizeRole T role ∈ roleOrder ∧
      user' = { user with
        groups := insert (normalizeRole T role) (user.groups.filter fun group => group ∉ roleOrder)
        isStaff := normalizeRole T role = roleAdmin
        isSuperuser := normalizeRole T role = roleAdmin } := by
  simp only [setUserRole] at h
  split at h
  · cases h
  · next hmem =>
    cases h
    exact ⟨not_not.mp hmem, rfl⟩

theorem setUserRole_roleAdmin (T : CaseTable) (user : User) :
    ∃ user', setUserRole T roleAdmin user = .ok user' := ⟨_, rfl⟩

theorem saveUser_ok {env : UserEnv} {user : User} {db db' : Db}
    (h : saveUser env user db = (.ok (), db')) : db' = { db with users := db.users.save user } := by
  unfold saveUser at h
  split at h
  · cases h
  · split at h
    · cases h
    · cases h
      rfl

theorem insertUser_ok {env : UserEnv} {mk : Nat → User} {db db' : Db} {user : User}
    (h : insertUser env mk db = (.ok user, db')) :
    user = mk db.users.fresh ∧ db' = { db with users := db.users.create mk } := by
  simp only [insertUser] at h
  split at h
  · cases h
  · split at h
    · cases h
    · cases h
      exact ⟨rfl, rfl⟩

theorem giveRole_ok {env : CreateEnv} {role : String} {user user' : User} {db db' : Db}
    (h : giveRole env role user db = (.ok user', db')) :
    setUserRole env.caseTable role user = .ok user' ∧ db' = { db with
      users := db.users.update (fun other => other.id = user'.id) (regrouped user'.groups) } := by
  unfold giveRole at h
  split at h
  · cases h
  · next hrole =>
    unfold writeGroups at h
    split at h
    · cases h
      exact ⟨hrole, rfl⟩
    · cases h

/-- The groups are a column like the others when the row is saved. -/
theorem save_regrouped (t : Table User) {user : User} {id : UserId} (hid : user.id = id)
    (groups : Finset String) :
    (t.update (fun other => other.id = id) (regrouped groups)).save user = t.save user := by
  subst hid
  exact Table.save_update t user (regrouped groups)

/-- The role is given and the row saved, which writes its groups as well. -/
theorem giveRole_saved {env : CreateEnv} {role : String} {user user' : User} {db db' : Db}
    (h : ((giveRole env role user).bind (saveAgain env)) db = (.ok user', db')) :
    setUserRole env.caseTable role user = .ok user' ∧
      db' = { db with users := db.users.save user' } := by
  obtain ⟨u, db₁, hrole, hsave⟩ := Call.bind_ok h
  obtain ⟨hset, rfl⟩ := giveRole_ok hrole
  obtain ⟨_, hsave, rfl⟩ := Call.map_ok hsave
  refine ⟨hset, ?_⟩
  simp only [saveUser_ok hsave, save_regrouped]

/-- The table has a row of the user, which may be a new one. -/
structure Entered (t : Table User) (id : UserId) (t' : Table User) : Prop where
  row : ∃ row ∈ t', row.id = id
  others : ∀ r ∈ t', r.id ≠ id → r ∈ t
  kept : ∀ r ∈ t, r ∈ t'

theorem entered_of_mem {t : Table User} {row : User} {id : UserId} (h : row ∈ t)
    (hid : row.id = id) : Entered t id t :=
  ⟨⟨row, h, hid⟩, fun _ hr _ => hr, fun _ hr => hr⟩

theorem entered_create (t : Table User) {mk : Nat → User} (hid : ∀ id, (mk id).id = id) :
    Entered t t.fresh (t.create mk) := by
  have hmem := Table.mem_create t mk hid
  refine ⟨⟨mk t.fresh, (hmem _).mpr (.inr rfl), hid _⟩, ?_, fun r hr => (hmem r).mpr (.inl hr)⟩
  intro r hr hne
  obtain hr | rfl := (hmem r).mp hr
  · exact hr
  · exact absurd (hid _) hne

theorem setUserRole_id {T : CaseTable} {role : String} {user user' : User}
    (h : setUserRole T role user = .ok user') : user'.id = user.id := by
  obtain ⟨_, rfl⟩ := setUserRole_ok h
  rfl

/-- A user that is created is entered and written back with the role. -/
theorem createUser_ok {env : CreateEnv} {caller : Caller} {mayAdd : Bool} {payload : UserCreateIn}
    {db db' : Db} {out : UserDetailOut}
    (h : createUser env caller mayAdd payload db = (.ok out, db')) :
    ∃ t u user, Entered db.users user.id t ∧ setUserRole env.caseTable payload.role u = .ok user ∧
      out = detailOut user ∧ db' = { db with users := t.save user } := by
  unfold createUser at h
  split at h
  · cases h
  · simp only at h
    split at h
    · cases h
    · obtain ⟨user, hbind, hout⟩ := Call.map_ok h
      obtain ⟨u, db₁, hinsert, hsaved⟩ := Call.bind_ok hbind
      obtain ⟨rfl, rfl⟩ := insertUser_ok (Call.mapError_ok hinsert)
      obtain ⟨hset, rfl⟩ := giveRole_saved hsaved
      refine ⟨_, _, user, ?_, hset, hout, rfl⟩
      rw [setUserRole_id hset]
      exact entered_create db.users fun _ => rfl

/-- The groups and the flags are those of the other user. -/
structure SameRole (user other : User) : Prop where
  groups : user.groups = other.groups
  isStaff : user.isStaff = other.isStaff
  isSuperuser : user.isSuperuser = other.isSuperuser

/-- The role of the row is the one that was set for it, or its own. -/
theorem changeRole_ok {env : UserEnv} {role : Option String} {user user' : User}
    (h : changeRole env role user = .ok user') :
    (role = none ∧ user' = user) ∨
      ∃ r, role = some r ∧ setUserRole env.caseTable r user = .ok user' := by
  unfold changeRole at h
  split at h
  · cases h
    exact .inl ⟨rfl, rfl⟩
  · next r =>
    split at h
    · cases h
    · next heq =>
      cases h
      exact .inr ⟨r, rfl, heq⟩

theorem changeEmail_ok {env : UserEnv} {email : Option (List Char)} {db : Db} {user user' : User}
    (h : changeEmail env email db user = .ok user') : ∃ username email,
      user' = { user with username := username, email := email } := by
  unfold changeEmail at h
  split at h
  · cases h
    exact ⟨user.username, user.email, rfl⟩
  · simp only at h
    split at h
    · cases h
    · cases h
      exact ⟨_, _, rfl⟩

theorem changePassword_eq (env : UserEnv) (password : Option (List Char)) (user : User) :
    ∃ password', changePassword env password user = { user with password := password' } := by
  unfold changePassword
  split
  · exact ⟨user.password, rfl⟩
  · exact ⟨_, rfl⟩

/-- The row that an update saves: its groups and flags come from the role that the
payload names, or are the stored ones. -/
theorem updateUser_ok {env : UserEnv} {caller : Caller} {mayChange : Bool} {userId : Int}
    {payload : UserUpdateIn} {db db' : Db} {out : UserDetailOut}
    (h : updateUser env caller mayChange userId payload db = (.ok out, db')) :
    ∃ row ∈ db.users, ∃ user, user.id = row.id ∧ out = detailOut user ∧
      db' = { db with users := db.users.save user } ∧
      ((payload.role = none ∧ SameRole user row) ∨ ∃ role u u', payload.role = some role ∧
        setUserRole env.caseTable role u = .ok u' ∧ SameRole user u') := by
  unfold updateUser at h
  split at h
  · cases h
  split at h
  · cases h
  split at h
  · cases h
  · next row hrow =>
    split at h
    · cases h
    · next named hemail =>
      obtain ⟨username, email, rfl⟩ := changeEmail_ok hemail
      obtain ⟨password, hpassword⟩ := changePassword_eq env payload.password
        { row with username := username, email := email }
      rw [hpassword] at h
      split at h
      · cases h
      · next user hrole =>
        obtain ⟨_, hsave, hout⟩ := Call.map_ok h
        have hdb := saveUser_ok hsave
        simp only [save_regrouped] at hdb
        refine ⟨row, (findUser_eq_some hrow).1, _, ?_, hout, hdb, ?_⟩
        · obtain ⟨_, rfl⟩ | ⟨r, _, hset⟩ := changeRole_ok hrole
          · rfl
          · obtain ⟨_, rfl⟩ := setUserRole_ok hset
            rfl
        · obtain ⟨hnone, rfl⟩ | ⟨r, hr, hset⟩ := changeRole_ok hrole
          · exact .inl ⟨hnone, rfl, rfl, rfl⟩
          · exact .inr ⟨r, _, user, hr, hset, rfl, rfl, rfl⟩

theorem saveUser_error {env : UserEnv} {user : User} {db db' : Db} {e : Raised}
    (h : saveUser env user db = (.error e, db')) : (e = writeFailed ∨ e = .integrity) ∧ db' = db := by
  unfold saveUser at h
  split at h
  · cases h
    exact ⟨.inl rfl, rfl⟩
  · split at h
    · cases h
      exact ⟨.inr rfl, rfl⟩
    · cases h

/-- An update that the handler refuses writes nothing. -/
theorem updateUser_http {env : UserEnv} {caller : Caller} {mayChange : Bool} {userId : Int}
    {payload : UserUpdateIn} {db db' : Db} {e : HttpError}
    (h : updateUser env caller mayChange userId payload db = (.error (.http e), db')) : db' = db := by
  unfold updateUser at h
  split at h
  · cases h; rfl
  split at h
  · cases h; rfl
  split at h
  · cases h; rfl
  split at h
  · cases h; rfl
  split at h
  · cases h; rfl
  · obtain ⟨hwrite | hintegrity, _⟩ := saveUser_error (Call.map_error h)
    · cases hwrite
    · cases hintegrity

theorem insertUser_error {env : UserEnv} {mk : Nat → User} {db db' : Db} {e : Raised}
    (h : insertUser env mk db = (.error e, db')) : (e = writeFailed ∨ e = .integrity) ∧ db' = db := by
  simp only [insertUser] at h
  split at h
  · cases h
    exact ⟨.inl rfl, rfl⟩
  · split at h
    · cases h
      exact ⟨.inr rfl, rfl⟩
    · cases h

/-- A creation that the handler refuses leaves the users as they were, or one more
that has no role. -/
theorem createUser_http {env : CreateEnv} {caller : Caller} {mayAdd : Bool} {payload : UserCreateIn}
    {db db' : Db} {e : HttpError}
    (h : createUser env caller mayAdd payload db = (.error (.http e), db')) : db' = db ∨
      ∃ username email password, db' = { db with
        users := db.users.create (newUser username email password false) } := by
  unfold createUser at h
  split at h
  · cases h; exact .inl rfl
  simp only at h
  split at h
  · cases h; exact .inl rfl
  · obtain hinsert | ⟨user, db₁, hinsert, hrest⟩ := Call.bind_error (Call.map_error h)
    · obtain ⟨e', he, _⟩ := Call.mapError_error hinsert
      exact .inl (insertUser_error he).2
    · obtain ⟨rfl, rfl⟩ := insertUser_ok (Call.mapError_ok hinsert)
      right
      obtain hrole | ⟨u, db₂, hrole, hsave⟩ := Call.bind_error hrest
      · unfold giveRole writeGroups at hrole
        split at hrole
        · cases hrole
          exact ⟨_, _, _, rfl⟩
        · split at hrole
          · cases hrole
          · cases hrole
      · obtain ⟨hwrite | hintegrity, _⟩ := saveUser_error (Call.map_error hsave)
        · cases hwrite
        · cases hintegrity

/-- Of a row that has the flags already the role changes the groups alone. -/
theorem regrouped_admin {T : CaseTable} {t : Table User} {row user : User} (hrow : row ∈ t)
    (hstaff : row.isStaff = true) (hsuper : row.isSuperuser = true)
    (hset : setUserRole T roleAdmin row = .ok user) :
    t.update (fun other => other.id = user.id) (regrouped user.groups) = t.save user := by
  obtain ⟨_, rfl⟩ := setUserRole_ok hset
  have hedit := Table.update_eq_save t hrow (regrouped
    (insert (normalizeRole T roleAdmin) (row.groups.filter fun group => group ∉ roleOrder)))
  rw [regrouped] at hedit
  simp only [hstaff, hsuper] at hedit
  exact hedit

/-- The command writes a user back with the role of an administrator: one that it
enters, or the one with the name. -/
theorem ensureAdmin_ok {env : CreateEnv} {environ : String → Option (List Char)} {db db' : Db}
    {outcome : AdminOutcome} (h : ensureAdmin env environ db = (.ok outcome, db')) :
    (outcome.user = none ∧ db' = db) ∨ ∃ t u user, outcome.user = some user ∧
      Entered db.users user.id t ∧ setUserRole env.caseTable roleAdmin u = .ok user ∧
      db' = { db with users := t.save user } := by
  simp only [ensureAdmin] at h
  split at h
  · cases h
    exact .inl ⟨rfl, rfl⟩
  right
  split at h
  · obtain ⟨user, hbind, rfl⟩ := Call.map_ok h
    obtain ⟨u, db₁, hinsert, hsaved⟩ := Call.bind_ok hbind
    obtain ⟨rfl, rfl⟩ := insertUser_ok hinsert
    obtain ⟨hset, rfl⟩ := giveRole_saved hsaved
    refine ⟨_, _, user, rfl, ?_, hset, rfl⟩
    rw [setUserRole_id hset]
    exact entered_create db.users fun _ => rfl
  · next row hrow =>
    have hmem : row ∈ db.users := ((Table.mem_filter _ _ _).mp (List.mem_of_mem_head? hrow)).1
    split at h
    · obtain ⟨user, hbind, rfl⟩ := Call.map_ok h
      obtain ⟨hset, rfl⟩ := giveRole_saved hbind
      refine ⟨_, _, user, rfl, ?_, hset, rfl⟩
      rw [setUserRole_id hset]
      exact entered_of_mem hmem rfl
    · next hsame =>
      obtain ⟨user, hgive, rfl⟩ := Call.map_ok h
      obtain ⟨hset, rfl⟩ := giveRole_ok hgive
      simp only [ne_eq, Bool.or_eq_true, decide_eq_true_eq, not_or, not_not, Bool.not_eq_true',
        Bool.not_eq_false] at hsame
      obtain ⟨⟨hemail, hstaff⟩, hsuper⟩ := hsame
      have hrole : setUserRole env.caseTable roleAdmin row = .ok user := by
        rw [← hset]
        cases row
        simp only at hemail hstaff hsuper
        rw [hemail, hstaff, hsuper]
      refine ⟨db.users, row, user, rfl, ?_, hrole, ?_⟩
      · rw [setUserRole_id hrole]
        exact entered_of_mem hmem rfl
      · rw [regrouped_admin hmem hstaff hsuper hrole]

/-- The role of an administrator is a valid one, and the handler of the command refuses
nothing. -/
theorem giveRole_roleAdmin_error {env : CreateEnv} {user : User} {db db' : Db} {e : Raised}
    (h : ((giveRole env roleAdmin user).bind (saveAgain env)) db = (.error e, db') ∨
      giveRole env roleAdmin user db = (.error e, db')) : e = writeFailed ∨ e = .integrity := by
  have hgive : ∀ {e : Raised} {db' : Db},
      giveRole env roleAdmin user db = (.error e, db') → e = writeFailed := by
    intro e db' h
    obtain ⟨user', hset⟩ := setUserRole_roleAdmin env.caseTable user
    simp only [giveRole, hset, writeGroups] at h
    split at h
    · cases h
    · cases h
      rfl
  obtain h | h := h
  · obtain hrole | ⟨u, db₁, _, hsave⟩ := Call.bind_error h
    · exact .inl (hgive hrole)
    · exact (saveUser_error (Call.map_error hsave)).1
  · exact .inl (hgive h)

theorem ensureAdmin_error {env : CreateEnv} {environ : String → Option (List Char)} {db db' : Db}
    {e : Raised} (h : ensureAdmin env environ db = (.error e, db')) :
    e = writeFailed ∨ e = .integrity := by
  simp only [ensureAdmin] at h
  split at h
  · cases h
  split at h
  · obtain hinsert | ⟨u, db₁, _, hrest⟩ := Call.bind_error (Call.map_error h)
    · exact (insertUser_error hinsert).1
    · exact giveRole_roleAdmin_error (.inl hrest)
  · split at h
    · exact giveRole_roleAdmin_error (.inl (Call.map_error h))
    · exact giveRole_roleAdmin_error (.inr (Call.map_error h))

/-! ## A deployment in which every write goes through -/

def asciiEnv : UserEnv where
  caseTable := .keep
  iexact a b := lower .keep a = lower .keep b
  makePassword password := String.ofList ("hash of ".toList ++ password)
  writes := true

def workingEnv : CreateEnv := { asciiEnv with writesGroups := true, writesRow := true }

/-- Whoever calls: what it may do is a parameter of the handlers. -/
def operator : Caller := ⟨0, true, [], []⟩

end Keywarden.Users
