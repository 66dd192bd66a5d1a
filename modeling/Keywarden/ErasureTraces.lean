import Keywarden.Erasure
import Keywarden.Keys

/-!
# What an erasure leaves of an identity

Two databases that differ in the identity of a user alone, and in what has been derived
from it: the system usernames of its accounts and the principals of its certificates. An
erasure overwrites the identity itself and none of the derived values.
-/
namespace Keywarden.ErasureTraces

open Rows Erasure

/-! ## The two databases -/

def withoutIdentity : Table.Edit User where
  apply u := { u with username := [], email := [] }
  key_apply _ := rfl

def withoutName : Table.Edit ServerAccount where
  apply a := { a with systemUsername := [] }
  key_apply _ := rfl

def withoutPrincipals : Table.Edit SSHCertificate where
  apply c := { c with principals := [], certificate := { c.certificate with principals := [] } }
  key_apply _ := rfl

/-- The database without the identity of a user and what has been derived from it. -/
def censored (u : UserId) (db : Db) : Db :=
  { db with
    users := db.users.update (fun r => r.id = u) withoutIdentity
    serverAccounts := db.serverAccounts.update (fun a => a.user = u) withoutName
    sshCertificates := db.sshCertificates.update (fun c => c.user = u) withoutPrincipals }

def Alike (u : UserId) (db₁ db₂ : Db) : Prop := censored u db₁ = censored u db₂

/-- The rows of a user. -/
structure UserRows where
  user : Option User
  sshKeys : List SSHKey
  sshCertificates : List SSHCertificate
  serverAccounts : List ServerAccount
  accessRequests : List AccessRequest
  erasureRequests : List ErasureRequest

def rowsOf (u : UserId) (db : Db) : UserRows where
  user := db.users.find u
  sshKeys := db.sshKeys.filter fun k => k.user = u
  sshCertificates := db.sshCertificates.filter fun c => c.user = u
  serverAccounts := db.serverAccounts.filter fun a => a.user = u
  accessRequests := db.accessRequests.filter fun r => r.requester = u
  erasureRequests := db.erasureRequests.filter fun r => r.user = u

def identity (r : User) : List Char × List Char := (r.username, r.email)

def principals (c : SSHCertificate) : List (List Char) × List Char :=
  (c.principals, c.certificate.principals)

/-- The values that have been derived from the identity are the same. -/
structure SameDerived (u : UserId) (db₁ db₂ : Db) : Prop where
  names : (rowsOf u db₁).serverAccounts.map ServerAccount.systemUsername =
    (rowsOf u db₂).serverAccounts.map ServerAccount.systemUsername
  principals : (rowsOf u db₁).sshCertificates.map principals =
    (rowsOf u db₂).sshCertificates.map principals

/-! ## Rows that differ in some columns -/

/-- Rows that agree but for one of their parts, after an edit that leaves the part alone. -/
theorem map_edit_iff {α β γ : Type} {rest : α → β} {part : α → γ} {edit : α → α}
    (hrow : ∀ a b, rest a = rest b → part a = part b → a = b) (hedit : ∀ a, part (edit a) = part a)
    {l₁ l₂ : List α} (h : l₁.map rest = l₂.map rest) :
    l₁.map edit = l₂.map edit ↔ l₁.map part = l₂.map part := by
  constructor
  · intro he
    have hpart := congrArg (List.map part) he
    simp only [List.map_map] at hpart
    have hcomp : part ∘ edit = part := funext hedit
    rwa [hcomp] at hpart
  · intro hp
    have hl : l₁ = l₂ := by
      induction l₁ generalizing l₂ with
      | nil => exact (List.map_eq_nil_iff.mp h.symm).symm
      | cons a l₁ ih =>
        cases l₂ with
        | nil => cases h
        | cons b l₂ =>
          simp only [List.map_cons, List.cons.injEq] at h hp
          rw [hrow a b h.1 hp.1, ih h.2 hp.2]
    rw [hl]

theorem user_row (a b : User) (h : withoutIdentity.apply a = withoutIdentity.apply b)
    (hi : identity a = identity b) : a = b := by
  cases a
  cases b
  simp_all [withoutIdentity, identity]

theorem eq_iff_map_part {α β γ : Type} {rest : α → β} {part : α → γ}
    (hrow : ∀ a b, rest a = rest b → part a = part b → a = b) {l₁ l₂ : List α}
    (h : l₁.map rest = l₂.map rest) : l₁ = l₂ ↔ l₁.map part = l₂.map part := by
  have hid : ∀ a : α, part (id a) = part a := fun _ => rfl
  have hedit := map_edit_iff hrow hid h
  rwa [List.map_id, List.map_id] at hedit

theorem account_row (a b : ServerAccount) (h : withoutName.apply a = withoutName.apply b)
    (hn : a.systemUsername = b.systemUsername) : a = b := by
  cases a
  cases b
  simp_all [withoutName]

theorem certificate_row (a b : SSHCertificate)
    (h : withoutPrincipals.apply a = withoutPrincipals.apply b) (hp : principals a = principals b) :
    a = b := by
  obtain ⟨_, _, ⟨⟩, _⟩ := a
  obtain ⟨_, _, ⟨⟩, _⟩ := b
  simp_all [withoutPrincipals, principals]

variable {u : UserId} {db₁ db₂ : Db}

theorem Alike.accounts (h : Alike u db₁ db₂) :
    (rowsOf u db₁).serverAccounts.map withoutName.apply =
      (rowsOf u db₂).serverAccounts.map withoutName.apply := by
  have hupdate := congrArg (fun db => db.serverAccounts.filter fun a => decide (a.user = u)) h
  simp only [censored] at hupdate
  rwa [Table.filter_update_self _ _ fun _ => rfl, Table.filter_update_self _ _ fun _ => rfl] at hupdate

theorem Alike.certificates (h : Alike u db₁ db₂) :
    (rowsOf u db₁).sshCertificates.map withoutPrincipals.apply =
      (rowsOf u db₂).sshCertificates.map withoutPrincipals.apply := by
  have hupdate := congrArg (fun db => db.sshCertificates.filter fun c => decide (c.user = u)) h
  simp only [censored] at hupdate
  rwa [Table.filter_update_self _ _ fun _ => rfl, Table.filter_update_self _ _ fun _ => rfl] at hupdate

theorem Alike.user (h : Alike u db₁ db₂) :
    (db₁.users.find u).map withoutIdentity.apply = (db₂.users.find u).map withoutIdentity.apply := by
  have hfind : ∀ db : Db, (censored u db).users.find u =
      (db.users.find u).map withoutIdentity.apply := by
    intro db
    rw [censored, Table.find_update]
    cases hu : db.users.find u with
    | none => rfl
    | some r =>
      have hid : r.id = u := ((Table.find_eq_some _ _ _).mp hu).2
      exact congrArg some (if_pos (by simpa using hid))
  rw [← hfind, ← hfind, h]

theorem Alike.accounts_iff (h : Alike u db₁ db₂) :
    (rowsOf u db₁).serverAccounts = (rowsOf u db₂).serverAccounts ↔
      (rowsOf u db₁).serverAccounts.map ServerAccount.systemUsername =
        (rowsOf u db₂).serverAccounts.map ServerAccount.systemUsername :=
  eq_iff_map_part account_row h.accounts

theorem Alike.user_iff (h : Alike u db₁ db₂) :
    db₁.users.find u = db₂.users.find u ↔
      (db₁.users.find u).map identity = (db₂.users.find u).map identity := by
  refine ⟨congrArg _, fun hi => ?_⟩
  have hu := h.user
  cases h₁ : db₁.users.find u with
  | none =>
    rw [h₁] at hi
    exact (Option.map_eq_none_iff.mp hi.symm).symm
  | some r₁ =>
    cases h₂ : db₂.users.find u with
    | none =>
      rw [h₁, h₂] at hi
      cases hi
    | some r₂ =>
      rw [h₁, h₂, Option.map_some, Option.map_some, Option.some.injEq] at hi hu
      rw [user_row r₁ r₂ hu hi]

theorem Alike.certificates_iff (h : Alike u db₁ db₂) :
    (rowsOf u db₁).sshCertificates = (rowsOf u db₂).sshCertificates ↔
      (rowsOf u db₁).sshCertificates.map principals =
        (rowsOf u db₂).sshCertificates.map principals :=
  eq_iff_map_part certificate_row h.certificates

/-! ## The erasure -/

/-- The new identity does not depend on the old one. -/
theorem Alike.anonymized (h : Alike u db₁ db₂) (token : List Char) :
    db₁.users.update (fun r => r.id = u) (anonymous token) =
      db₂.users.update (fun r => r.id = u) (anonymous token) := by
  have hover : ∀ db : Db, (censored u db).users.update (fun r => r.id = u) (anonymous token) =
      db.users.update (fun r => r.id = u) (anonymous token) :=
    fun db => Table.update_update _ (fun _ => rfl) fun _ => rfl
  have hall : censored u db₁ = censored u db₂ := h
  rw [← hover db₁, hall, hover db₂]

/-- Revoking certificates leaves the principals as they are. -/
theorem Alike.revoked_iff (h : Alike u db₁ db₂) (now : Instant) :
    (db₁.sshCertificates.update (fun c => c.user = u && c.isActive) (revokedCertificate now)).filter
          (fun c => c.user = u) =
        (db₂.sshCertificates.update (fun c => c.user = u && c.isActive) (revokedCertificate now)).filter
          (fun c => c.user = u) ↔
      (rowsOf u db₁).sshCertificates.map principals =
        (rowsOf u db₂).sshCertificates.map principals := by
  rw [Table.filter_update _ _ _ fun _ => rfl, Table.filter_update _ _ _ fun _ => rfl]
  refine map_edit_iff certificate_row (fun c => ?_) h.certificates
  split
  · rfl
  · rfl

/-- What is left of two users who differ in their identity alone is the same if and only if
no value derived from it differs, and, when the request has been processed before, the
identity does not differ either. -/
theorem process_rows_iff (self : ErasureRequest) (adminUser : UserId) (reason token : List Char)
    (now : Instant) (h : Alike self.user db₁ db₂) :
    rowsOf self.user (process self adminUser reason token now db₁).2 =
        rowsOf self.user (process self adminUser reason token now db₂).2 ↔
      SameDerived self.user db₁ db₂ ∧ (self.status = .processed →
        (db₁.users.find self.user).map identity = (db₂.users.find self.user).map identity) := by
  have hall : censored self.user db₁ = censored self.user db₂ := h
  have hkeys := congrArg Db.sshKeys hall
  have hrequests := congrArg Db.accessRequests hall
  have herasures := congrArg Db.erasureRequests hall
  simp only [censored] at hkeys hrequests herasures
  have hderived : SameDerived self.user db₁ db₂ ↔
      (rowsOf self.user db₁).sshCertificates.map principals =
          (rowsOf self.user db₂).sshCertificates.map principals ∧
        (rowsOf self.user db₁).serverAccounts.map ServerAccount.systemUsername =
          (rowsOf self.user db₂).serverAccounts.map ServerAccount.systemUsername :=
    ⟨fun hd => ⟨hd.principals, hd.names⟩, fun hd => ⟨hd.2, hd.1⟩⟩
  rw [hderived, ← h.accounts_iff]
  unfold process
  by_cases hprocessed : self.status = .processed
  · rw [if_pos hprocessed, if_pos hprocessed, ← h.user_iff, ← h.certificates_iff]
    simp only [rowsOf, UserRows.mk.injEq, hkeys, hrequests, herasures, hprocessed, forall_const,
      true_and, and_true]
    exact and_comm
  · rw [if_neg hprocessed, if_neg hprocessed, ← h.revoked_iff now]
    simp only [rowsOf, UserRows.mk.injEq, anonymizeUser, h.anonymized token, hkeys, hrequests,
      herasures, hprocessed, false_imp_iff, true_and, and_true]

/-! ## A user with an account -/

def request : ErasureRequest := ⟨1, 1, "leaving".toList, .pending, 0, none, none, [], none, none⟩

/-- A user of the given name, with an account on server 1 if it has one. -/
def userNamed (name : List Char) (account : Option (List Char)) : Db where
  users := Table.empty.insert { Keys.alice with username := name, email := name }
  erasureRequests := Table.empty.insert request
  serverAccounts := match account with
    | none => .empty
    | some systemUsername => Table.empty.insert ⟨1, 1, systemUsername, true, 0⟩

/-- Nothing is left of the names of users without accounts and certificates. -/
theorem rows_without_account :
    rowsOf 1 (process request 2 [] "0f".toList 5 (userNamed "alice".toList none)).2 =
      rowsOf 1 (process request 2 [] "0f".toList 5 (userNamed "bob".toList none)).2 :=
  (process_rows_iff request 2 [] "0f".toList 5 rfl).mpr ⟨⟨rfl, rfl⟩, fun h => by cases h⟩

/-- The account of a user still has the name that was made from the username. -/
theorem account_keeps_name :
    ¬ ∀ (self : ErasureRequest) (adminUser : UserId) (reason token : List Char) (now : Instant)
      (db₁ db₂ : Db), Alike self.user db₁ db₂ →
      rowsOf self.user (process self adminUser reason token now db₁).2 =
        rowsOf self.user (process self adminUser reason token now db₂).2 := by
  intro h
  have hrows := h request 2 [] "0f".toList 5 (userNamed "alice".toList (some "alice_1".toList))
    (userNamed "bob".toList (some "bob_1".toList)) rfl
  have hnames := congrArg (fun rows => rows.serverAccounts.map ServerAccount.systemUsername) hrows
  exact absurd hnames (by decide +kernel)

end Keywarden.ErasureTraces
