import Mathlib.Data.Finset.Prod
import Keywarden.KeyApi

/-!
# What a user may do

Permissions as Django's `ModelBackend` and guardian's `ObjectPermissionBackend`
answer for them: a user has a global or an object permission for itself or through
a group, and an inactive user has none. With them `apps/core/rbac.py`, the
`sync_object_perms` command and the users an agent is told of.
-/
namespace Keywarden.Authorization

open Rows

/-- A row of guardian's `GroupObjectPermission`. -/
structure GroupObjectPermission where
  group : String
  permission : Perm
  object : Nat
  deriving DecidableEq, Repr

/-- The database together with what is granted to groups. -/
structure Site extends Db where
  groupPermissions : Finset (String × Perm) := ∅
  groupObjectPermissions : Finset GroupObjectPermission := ∅

/-- A write to the tables of the handlers. -/
def Site.over (f : Db → Db) (site : Site) : Site := { site with toDb := f site.toDb }

@[simp] theorem over_toDb (f : Db → Db) (site : Site) : (site.over f).toDb = f site.toDb := rfl

/-! ## The backends -/

def hasPerm (user : User) (p : Perm) (site : Site) : Bool :=
  user.isActive && (user.isSuperuser || p ∈ user.userPermissions ||
    decide (∃ g ∈ user.groups, (g, p) ∈ site.groupPermissions))

/-- A row of guardian's two tables grants the permission. -/
def granted (user : User) (p : Perm) (object : Nat) (site : Site) : Bool :=
  (⟨user.id, p, object⟩ : UserObjectPermission) ∈ site.userObjectPermissions ||
    decide (∃ g ∈ user.groups, ⟨g, p, object⟩ ∈ site.groupObjectPermissions)

def hasObjectPerm (user : User) (p : Perm) (object : Nat) (site : Site) : Bool :=
  user.isActive && (user.isSuperuser || granted user p object site)

/-- `caller` answers as `user` does; an inactive user is not authenticated. -/
structure Represents (site : Site) (user : User) (caller : Caller) : Prop where
  id : caller.id = user.id
  authenticated : caller.isAuthenticated = user.isActive
  perm : ∀ p, caller.hasPerm p = hasPerm user p site
  objectPerm : ∀ p object, caller.hasObjectPerm p object = hasObjectPerm user p object site

theorem hasObjectPerm_inactive {user : User} (h : user.isActive = false) (p : Perm) (object : Nat)
    (site : Site) : hasObjectPerm user p object site = false := by
  simp [hasObjectPerm, h]

/-! ## Roles -/

def roleAdmin : String := "administrator"
def roleUser : String := "user"
def roleOrder : List String := [roleAdmin, roleUser]

/-- The models with object permissions. -/
inductive ObjectModel where
  | server | accessrequest | sshkey
  deriving DecidableEq, Repr

def permModel : Perm → ObjectModel
  | .viewServer | .shellServer => .server
  | .addAccessrequest | .viewAccessrequest | .changeAccessrequest => .accessrequest
  | .addSshkey | .viewSshkey | .changeSshkey | .deleteSshkey => .sshkey

def isAdd : Perm → Bool
  | .addAccessrequest | .addSshkey => true
  | _ => false

/-- `ROLE_PERMISSIONS[ROLE_USER]`. -/
def userPerms : List Perm := [.addAccessrequest, .addSshkey]

/-- The administrators' group is passed over. -/
def assignDefaultObjectPermissions (model : ObjectModel) (object : Nat) (site : Site) : Site :=
  let perms := userPerms.filter fun p => permModel p = model && !isAdd p
  { site with
    groupObjectPermissions := perms.foldl (fun rows p => insert ⟨roleUser, p, object⟩ rows)
      site.groupObjectPermissions }

/-- The user role has only `add_` permissions, so no group is assigned anything. -/
@[simp] theorem assignDefaultObjectPermissions_eq (model : ObjectModel) (object : Nat) (site : Site) :
    assignDefaultObjectPermissions model object site = site := by
  cases model <;> rfl

/-! ## The command `sync_object_perms` -/

def syncAccessRequest (site : Site) (r : AccessRequest) : Site :=
  assignDefaultObjectPermissions .accessrequest r.id <|
    site.over fun db => assignPerm ⟨r.requester, .changeAccessrequest, r.id⟩
      (assignPerm ⟨r.requester, .viewAccessrequest, r.id⟩ db)

def syncKey (site : Site) (key : SSHKey) : Site :=
  assignDefaultObjectPermissions .sshkey key.id <| site.over (KeyApi.assignSshKeyPerms key)

def syncServer (site : Site) (server : Server) : Site :=
  assignDefaultObjectPermissions .server server.id site

/-- Requests, then keys, then servers. -/
def syncObjectPerms (site : Site) : Site :=
  let site := site.accessRequests.toList.foldl syncAccessRequest site
  let site := site.sshKeys.toList.foldl syncKey site
  site.servers.toList.foldl syncServer site

/-! ## The users an agent is told of -/

/-- The key `(username, id)` of the sort. -/
def userOrder (a b : User) : Prop :=
  a.username < b.username ∨ (a.username = b.username ∧ a.id ≤ b.id)

instance : DecidableRel userOrder := fun a b =>
  inferInstanceAs (Decidable (a.username < b.username ∨ (a.username = b.username ∧ a.id ≤ b.id)))

/-- `get_users_with_perms` without superusers, then the active ones. -/
def resolveAccessUsers (server : ServerId) (site : Site) : List User :=
  ((site.users.filter fun user => granted user .viewServer server site).filter
    fun user => user.isActive).insertionSort userOrder

theorem mem_resolveAccessUsers (server : ServerId) (site : Site) (user : User) :
    user ∈ resolveAccessUsers server site ↔
      user ∈ site.users ∧ granted user .viewServer server site = true ∧ user.isActive = true := by
  rw [resolveAccessUsers, List.mem_insertionSort, List.mem_filter, Table.mem_filter, and_assoc]

/-! ## What the command changes -/

/-- Only object permissions of users differ. -/
def SamePerms (site site' : Site) : Prop :=
  ∃ p, site' = site.over fun db => { db with userObjectPermissions := p }

theorem SamePerms.refl (site : Site) : SamePerms site site := ⟨_, rfl⟩

theorem SamePerms.trans {a b c : Site} (hab : SamePerms a b) (hbc : SamePerms b c) :
    SamePerms a c := by
  obtain ⟨p, rfl⟩ := hab
  obtain ⟨q, rfl⟩ := hbc
  exact ⟨q, rfl⟩

theorem samePerms_foldl {α : Type} {f : Site → α → Site} (hf : ∀ site a, SamePerms site (f site a))
    (l : List α) (site : Site) : SamePerms site (l.foldl f site) := by
  induction l generalizing site with
  | nil => exact SamePerms.refl site
  | cons a l ih => exact (hf site a).trans (ih (f site a))

theorem syncObjectPerms_frame (site : Site) : SamePerms site (syncObjectPerms site) := by
  have hrequest : ∀ site r, SamePerms site (syncAccessRequest site r) := fun site r =>
    ⟨_, assignDefaultObjectPermissions_eq _ _ _⟩
  have hkey : ∀ site key, SamePerms site (syncKey site key) := fun site key =>
    ⟨_, assignDefaultObjectPermissions_eq _ _ _⟩
  have hserver : ∀ site server, SamePerms site (syncServer site server) := fun site server =>
    ⟨_, assignDefaultObjectPermissions_eq _ _ _⟩
  exact ((samePerms_foldl hrequest _ _).trans (samePerms_foldl hkey _ _)).trans
    (samePerms_foldl hserver _ _)

end Keywarden.Authorization
