import Keywarden.Models
import Keywarden.Text

/-!
# Erasure requests

`ErasureRequest.process` in `apps/accounts/models.py`. The user row is made
anonymous, and every row that gives the user access is cut by a bulk statement,
which fires no signal.
-/
namespace Keywarden.Erasure

open Rows Text

def anonymousUsername (token : List Char) : List Char := "erased-".toList ++ token

def anonymousEmail (token : List Char) : List Char :=
  anonymousUsername token ++ "@erased.local".toList

/-- The columns of the user that `user.save(update_fields=…)`, `groups.clear()` and
`user_permissions.clear()` write. -/
def anonymous (token : List Char) : Table.Edit User where
  apply u := { u with
    username := anonymousUsername token
    email := anonymousEmail token
    firstName := []
    lastName := []
    password := none
    isActive := false
    isStaff := false
    isSuperuser := false
    lastLogin := none
    groups := ∅
    userPermissions := ∅ }
  key_apply _ := rfl

def redacted : Table.Edit AccessRequest where
  apply r := { r with reason := "[redacted]".toList }
  key_apply _ := rfl

def revokedRequest (adminUser : UserId) (now : Instant) : Table.Edit AccessRequest where
  apply r := { r with
    status := .revoked
    decidedAt := some now
    decidedBy := some adminUser
    expiresAt := some now }
  key_apply _ := rfl

def isOpen (user : UserId) (r : AccessRequest) : Bool :=
  r.requester = user && (r.status = .pending || r.status = .approved)

/-- The rows of the requester after the two bulk updates. -/
def erasedRequests (user adminUser : UserId) (now : Instant) (t : Table AccessRequest) :
    Table AccessRequest :=
  (t.update (fun r => r.requester = user) redacted).update (isOpen user)
    (revokedRequest adminUser now)

/-- `token` is `uuid.uuid4().hex`. -/
def anonymizeUser (adminUser : UserId) (token : List Char) (now : Instant) (user : UserId)
    (db : Db) : Db :=
  { db with
    users := db.users.update (fun u => u.id = user) (anonymous token)
    userObjectPermissions := db.userObjectPermissions.filter fun p => p.user ≠ user
    sshKeys := db.sshKeys.update (fun k => k.user = user && k.isActive) (revokedKey now)
    sshCertificates := db.sshCertificates.update (fun c => c.user = user && c.isActive)
      (revokedCertificate now)
    accessRequests := erasedRequests user adminUser now db.accessRequests }

def processed (adminUser : UserId) (decisionReason : List Char) (now : Instant) :
    Table.Edit ErasureRequest where
  apply e := { e with
    status := .processed
    decidedAt := some now
    decidedBy := some adminUser
    decisionReason := strip isSpace decisionReason
    processedAt := some now
    processedBy := some adminUser }
  key_apply _ := rfl

/-- `self` is the instance in memory; the row with its key gets the same columns. -/
def process (self : ErasureRequest) (adminUser : UserId) (decisionReason token : List Char)
    (now : Instant) (db : Db) : ErasureRequest × Db :=
  if self.status = .processed then (self, db)
  else
    let db := anonymizeUser adminUser token now self.user db
    let edit := processed adminUser decisionReason now
    (edit.apply self,
      { db with erasureRequests := db.erasureRequests.update (fun e => e.id = self.id) edit })

/-- Every request of the user is closed; the rows of others are as they were. -/
theorem mem_erasedRequests {user adminUser : UserId} {now : Instant} {t : Table AccessRequest}
    {r : AccessRequest} (h : r ∈ erasedRequests user adminUser now t) :
    (r.requester = user ∧ r.status ≠ .pending ∧ r.status ≠ .approved) ∨
      (r.requester ≠ user ∧ r ∈ t) := by
  obtain ⟨o, ho, rfl⟩ := (Table.mem_update _ _ _ _).mp h
  obtain ⟨p, hp, rfl⟩ := (Table.mem_update _ _ _ _).mp ho
  by_cases hu : p.requester = user
  · left
    by_cases hs : p.status = .pending ∨ p.status = .approved
    · simp [isOpen, hu, redacted, revokedRequest, hs]
    · obtain ⟨h₁, h₂⟩ := not_or.mp hs
      simp [isOpen, hu, redacted, h₁, h₂]
  · right
    simp [isOpen, hu, hp]

theorem erasedRequests_of_ne {user adminUser : UserId} {now : Instant} {t : Table AccessRequest}
    {r : AccessRequest} (h : r ∈ t) (hu : r.requester ≠ user) :
    r ∈ erasedRequests user adminUser now t := by
  rw [erasedRequests, Table.mem_update]
  refine ⟨r, (Table.mem_update _ _ _ _).mpr ⟨r, h, by simp [hu]⟩, ?_⟩
  simp [isOpen, hu]

/-- A key of the user is inactive after `filter(user=…, is_active=True).update(…)`. -/
theorem revokedKey_inactive {now : Instant} {user : UserId} {t : Table SSHKey} {k : SSHKey}
    (h : k ∈ t.update (fun k => k.user = user && k.isActive) (revokedKey now))
    (hu : k.user = user) : k.isActive = false := by
  refine Table.forall_mem_update (q := fun k => k.user = user → k.isActive = false) ?_ ?_ k h hu
  · exact fun _ _ _ => rfl
  · intro o hp hu
    simpa [hu] using hp

theorem revokedCertificate_inactive {now : Instant} {user : UserId} {t : Table SSHCertificate}
    {c : SSHCertificate}
    (h : c ∈ t.update (fun c => c.user = user && c.isActive) (revokedCertificate now))
    (hu : c.user = user) : c.isActive = false := by
  refine Table.forall_mem_update (q := fun c => c.user = user → c.isActive = false) ?_ ?_ c h hu
  · exact fun _ _ _ => rfl
  · intro o hp hu
    simpa [hu] using hp

/-- The erased user holds no object permission, anybody else keeps theirs. -/
theorem holdsView_anonymizeUser (adminUser : UserId) (token : List Char) (now : Instant)
    (user : UserId) (db : Db) (u : UserId) (s : ServerId) :
    HoldsView (anonymizeUser adminUser token now user db) u s ↔ u ≠ user ∧ HoldsView db u s := by
  simp [HoldsView, anonymizeUser, and_comm]

end Keywarden.Erasure
