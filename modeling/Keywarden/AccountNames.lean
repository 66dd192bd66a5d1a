import Keywarden.Grants
import Keywarden.Users

/-!
# Whose account keeps its name

An account is named after the username. Through all that the site does, the rows of the
users stay, and whoever is active afterwards was active before under the same username,
unless an administrator gives the user another e-mail or activates the user again.
-/
namespace Keywarden.AccountNames

open Rows Transitions Keys Erasure Authorization ErasureRun Writes Users Relation

variable {L : UserId → Prop} {t t' : Table User} {db : Db}

/-- The users of `L` stay, and the active ones keep their username. -/
def Keeps (L : UserId → Prop) (t t' : Table User) : Prop :=
  ∀ user ∈ t, L user.id → ∃ user' ∈ t', user'.id = user.id ∧
    (user'.isActive = true → user.isActive = true ∧ user'.username = user.username)

theorem Keeps.refl (L : UserId → Prop) (t : Table User) : Keeps L t t :=
  fun user h _ => ⟨user, h, rfl, fun hact => ⟨hact, rfl⟩⟩

theorem Keeps.trans {t'' : Table User} (h : Keeps L t t') (h' : Keeps L t' t'') : Keeps L t t'' := by
  intro user hm hL
  obtain ⟨user', hm', hid, hkept⟩ := h user hm hL
  obtain ⟨user'', hm'', hid', hkept'⟩ := h' user' hm' (hid ▸ hL)
  refine ⟨user'', hm'', hid'.trans hid, fun hact => ?_⟩
  obtain ⟨hact', hname'⟩ := hkept' hact
  obtain ⟨hact'', hname⟩ := hkept hact'
  exact ⟨hact'', hname'.trans hname⟩

theorem keeps_update {q : User → Bool} {e : Table.Edit User}
    (h : ∀ u, (e.apply u).isActive = true → u.isActive = true ∧ (e.apply u).username = u.username) :
    Keeps L t (t.update q e) := by
  intro user hm _
  refine ⟨_, (Table.mem_update _ _ _ _).mpr ⟨user, hm, rfl⟩, ?_, ?_⟩
  · split
    · exact e.key_apply user
    · rfl
  · split
    · exact h user
    · exact fun hact => ⟨hact, rfl⟩

theorem keeps_save {user : User} (h : ∀ row ∈ t, row.id = user.id → L row.id →
    user.isActive = true → row.isActive = true ∧ user.username = row.username) :
    Keeps L t (t.save user) := by
  intro row hm hL
  by_cases hid : row.id = user.id
  · exact ⟨user, (Table.mem_save _ _ _).mpr (.inl ⟨rfl, row, hm, hid⟩), hid.symm, h row hm hid hL⟩
  · exact ⟨row, (Table.mem_save _ _ _).mpr (.inr ⟨hm, hid⟩), rfl, fun hact => ⟨hact, rfl⟩⟩

theorem keeps_create {mk : Nat → User} (hid : ∀ n, (mk n).id = n) : Keeps L t (t.create mk) :=
  fun user hm _ => ⟨user, (Table.mem_create _ _ hid _).mpr (.inl hm), rfl, fun hact => ⟨hact, rfl⟩⟩

/-! ## The events of the site -/

section Site

variable {A : UserId → Prop} {now : Instant} {db' : Db}

theorem write_keeps (h : Write A now db db') : Keeps L db.users db'.users := by
  cases h with
  | aside h =>
    cases h with
    | login _ => exact keeps_update fun _ hact => ⟨hact, rfl⟩
    | _ => exact Keeps.refl _ _
  | anonymize _ _ =>
    refine keeps_update fun _ hact => ?_
    cases hact
  | _ => exact Keeps.refl _ _

theorem step_keeps (site : Site) (e : Event) : Keeps L site.users (step site e).users :=
  chain_preserves (I := fun db => Keeps L site.users db.users)
    (fun _ _ hw hk => hk.trans (write_keeps hw)) (step_chain site e) (Keeps.refl L _)

end Site

/-! ## The calls that change users -/

/-- Only the users are written, and they keep their names. -/
def KeepsNames (L : UserId → Prop) (db db' : Db) : Prop :=
  (∃ t, db' = { db with users := t }) ∧ Keeps L db.users db'.users

theorem KeepsNames.refl (L : UserId → Prop) (db : Db) : KeepsNames L db db :=
  ⟨⟨_, rfl⟩, Keeps.refl L _⟩

theorem KeepsNames.trans {a b c : Db} (hab : KeepsNames L a b) (hbc : KeepsNames L b c) :
    KeepsNames L a c := by
  obtain ⟨⟨t, rfl⟩, hab⟩ := hab
  obtain ⟨⟨u, rfl⟩, hbc⟩ := hbc
  exact ⟨⟨u, rfl⟩, hab.trans hbc⟩

theorem keepsNames_bind {α β : Type} {c : Call α} {next : α → Call β}
    (hc : KeepsNames L db (c db).2)
    (hnext : ∀ a db', c db = (.ok a, db') → KeepsNames L db' (next a db').2) :
    KeepsNames L db ((c.bind next) db).2 := by
  have hchain := chain_bind (R := KeepsNames L) (.single hc) fun a db' h => .single (hnext a db' h)
  generalize ((c.bind next) db).2 = db' at hchain
  induction hchain with
  | refl => exact KeepsNames.refl L db
  | tail _ h ih => exact ih.trans h

theorem saveUser_keepsNames {env : UserEnv} {user : User} (h : ∀ row ∈ db.users, row.id = user.id →
    L row.id → user.isActive = true → row.isActive = true ∧ user.username = row.username) :
    KeepsNames L db (saveUser env user db).2 := by
  unfold saveUser
  split
  · exact KeepsNames.refl L db
  · split
    · exact KeepsNames.refl L db
    · exact ⟨⟨_, rfl⟩, keeps_save h⟩

theorem regrouped_keepsNames (q : User → Bool) (groups : Finset String) :
    KeepsNames L db { db with users := db.users.update q (regrouped groups) } :=
  ⟨⟨_, rfl⟩, keeps_update fun _ hact => ⟨hact, rfl⟩⟩

/-- The rows of the user, whatever their groups. -/
theorem mem_regrouped {q : User → Bool} {groups : Finset String} {row : User}
    (h : row ∈ db.users.update q (regrouped groups)) :
    ∃ o ∈ db.users, o.id = row.id ∧ o.isActive = row.isActive ∧ o.username = row.username := by
  obtain ⟨o, ho, rfl⟩ := (Table.mem_update _ _ _ _).mp h
  refine ⟨o, ho, ?_⟩
  split <;> exact ⟨rfl, rfl, rfl⟩

/-- The role of a user is given and the row saved. -/
theorem giveRole_keepsNames {env : CreateEnv} {role : String} {user : User}
    (h : ∀ row ∈ db.users, row.id = user.id → L row.id → user.isActive = true →
      row.isActive = true ∧ user.username = row.username) :
    KeepsNames L db (((giveRole env role user).bind (saveAgain env)) db).2 ∧
      KeepsNames L db (giveRole env role user db).2 := by
  have hgive : KeepsNames L db (giveRole env role user db).2 := by
    unfold giveRole
    split
    · exact KeepsNames.refl L db
    · unfold writeGroups
      split
      · exact regrouped_keepsNames _ _
      · exact KeepsNames.refl L db
  refine ⟨keepsNames_bind hgive fun user' db' heq => ?_, hgive⟩
  obtain ⟨hset, rfl⟩ := giveRole_ok heq
  obtain ⟨_, rfl⟩ := setUserRole_ok hset
  refine saveUser_keepsNames fun row hrow hid hL hact => ?_
  obtain ⟨o, ho, hoid, hoact, honame⟩ := mem_regrouped hrow
  obtain ⟨hrowact, hname⟩ := h o ho (hoid.trans hid) (hoid ▸ hL) hact
  exact ⟨hoact ▸ hrowact, hname.trans honame⟩

theorem insertUser_keepsNames {env : UserEnv} {mk : Nat → User} (hid : ∀ n, (mk n).id = n) :
    KeepsNames L db (insertUser env mk db).2 := by
  simp only [insertUser]
  split
  · exact KeepsNames.refl L db
  · split
    · exact KeepsNames.refl L db
    · exact ⟨⟨_, rfl⟩, keeps_create hid⟩

/-- A user who is created is nobody of `L`. -/
theorem createUser_keepsNames {env : CreateEnv} {caller : Caller} {mayAdd : Bool}
    {payload : UserCreateIn} (hfresh : ¬ L db.users.fresh) :
    KeepsNames L db (createUser env caller mayAdd payload db).2 := by
  unfold createUser
  split
  · exact KeepsNames.refl L db
  · simp only
    split
    · exact KeepsNames.refl L db
    · rw [Call.map_db]
      refine keepsNames_bind (insertUser_keepsNames fun _ => rfl) fun user db' heq => ?_
      obtain ⟨rfl, _⟩ := insertUser_ok (Call.mapError_ok heq)
      refine (giveRole_keepsNames fun row _ hid hL _ => absurd ?_ hfresh).1
      exact (show row.id = db.users.fresh from hid) ▸ hL

/-- The command leaves the username of an administrator alone, and does not activate one. -/
theorem ensureAdmin_keepsNames {env : CreateEnv} {environ : String → Option (List Char)}
    (hfresh : ¬ L db.users.fresh) : KeepsNames L db (ensureAdmin env environ db).2 := by
  unfold ensureAdmin
  simp only
  split
  · exact KeepsNames.refl L db
  · split
    · rw [Call.map_db]
      refine keepsNames_bind (insertUser_keepsNames fun _ => rfl) fun user db' heq => ?_
      obtain ⟨rfl, _⟩ := insertUser_ok heq
      refine (giveRole_keepsNames fun row _ hid hL _ => absurd ?_ hfresh).1
      exact (show row.id = db.users.fresh from hid) ▸ hL
    · next row hrow =>
      have hmem : row ∈ db.users := (Table.mem_filter _ _ _).mp (List.mem_of_mem_head? hrow) |>.1
      have hrole := @giveRole_keepsNames L db env roleAdmin { row with
          email := getenv environ "DJANGO_SUPERUSER_EMAIL" "KEYWARDEN_ADMIN_EMAIL"
          isStaff := true
          isSuperuser := true } fun o ho hid _ hact => by
        rw [Table.eq_of_key _ ho hmem hid]
        exact ⟨hact, rfl⟩
      split
      · exact hrole.1
      · exact hrole.2

theorem changeEmail_keeps {env : UserEnv} {email : Option (List Char)} {user user' : User}
    (h : changeEmail env email db user = .ok user') : user'.id = user.id ∧
      user'.isActive = user.isActive ∧ (email = none → user'.username = user.username) := by
  obtain ⟨username, email', rfl⟩ := changeEmail_ok h
  refine ⟨rfl, rfl, fun hnone => ?_⟩
  rw [hnone] at h
  exact congrArg User.username (Except.ok.inj h).symm

theorem changeRole_keeps {env : UserEnv} {password : Option (List Char)} {role : Option String}
    {user user' : User} (h : changeRole env role (changePassword env password user) = .ok user') :
    user'.id = user.id ∧ user'.isActive = user.isActive ∧ user'.username = user.username := by
  obtain ⟨password', hpassword⟩ := changePassword_eq env password user
  rw [hpassword] at h
  obtain ⟨_, rfl⟩ | ⟨r, _, hset⟩ := changeRole_ok h
  · exact ⟨rfl, rfl, rfl⟩
  · obtain ⟨_, rfl⟩ := setUserRole_ok hset
    exact ⟨rfl, rfl, rfl⟩

/-- An update of a user of `L` that neither renames nor activates. -/
theorem updateUser_keepsNames {env : UserEnv} {caller : Caller} {mayChange : Bool} {userId : Int}
    {payload : UserUpdateIn} (h : ∀ user ∈ db.users, (user.id : Int) = userId → L user.id →
      payload.email = none ∧ payload.isActive ≠ some true) :
    KeepsNames L db (updateUser env caller mayChange userId payload db).2 := by
  unfold updateUser
  split
  · exact KeepsNames.refl L db
  split
  · exact KeepsNames.refl L db
  split
  · exact KeepsNames.refl L db
  · next row hrow =>
    obtain ⟨hmem, hid⟩ := findUser_eq_some hrow
    split
    · exact KeepsNames.refl L db
    · next user hemail =>
      split
      · exact KeepsNames.refl L db
      · next user' hrole =>
        obtain ⟨hidUser, hactUser, hnameUser⟩ := changeEmail_keeps hemail
        obtain ⟨hidRole, hactRole, hnameRole⟩ := changeRole_keeps hrole
        rw [Call.map_db]
        refine (regrouped_keepsNames _ _).trans (saveUser_keepsNames fun o ho hoid hL hact => ?_)
        obtain ⟨r, hr, hrid, hract, hrname⟩ := mem_regrouped ho
        have hrow : r = row :=
          Table.eq_of_key _ hr hmem (hrid.trans (hoid.trans (hidRole.trans hidUser)))
        subst hrow
        obtain ⟨hnone, hactivate⟩ := h r hr hid (hrid ▸ hL)
        refine ⟨?_, hnameRole.trans ((hnameUser hnone).trans hrname)⟩
        rw [← hract, ← hactUser, ← hactRole]
        cases hpayload : payload.isActive with
        | none => rwa [hpayload] at hact
        | some active =>
          rw [hpayload] at hact
          exact absurd (hpayload.trans (congrArg some hact)) hactivate

end Keywarden.AccountNames
