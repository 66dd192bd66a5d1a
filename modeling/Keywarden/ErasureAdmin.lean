import Keywarden.Erasure
import Keywarden.Forms

/-!
# Erasure requests in the admin

`ErasureRequestAdmin` in `apps/accounts/admin.py`. The change view reads the
stored request, the form copies its cleaned fields onto that instance, status
included, and `save_model` hands the instance to `process`, which goes by the
status it finds there.
-/
namespace Keywarden.ErasureAdmin

open Rows Text Forms Erasure

def statusOf : String → Option ErasureStatus
  | "pending" => some .pending
  | "denied" => some .denied
  | "processed" => some .processed
  | _ => none

/-- The fields of the fieldsets that are not read-only, as submitted. -/
structure Submission where
  user : Option UserId
  reason : List Char
  status : String
  decisionReason : List Char
  deriving DecidableEq, Repr

structure Cleaned where
  user : UserId
  reason : List Char
  status : ErasureStatus
  decisionReason : List Char
  deriving DecidableEq, Repr

def userField (user : Option UserId) (db : Db) : Except (List FormError) UserId :=
  match user with
  | none => .error [⟨some "user", requiredError⟩]
  | some u =>
    if (db.users.find u).isSome then .ok u
    else .error [⟨some "user",
      "Select a valid choice. That choice is not one of the available choices."⟩]

def statusField (text : String) : Except (List FormError) ErasureStatus :=
  if text = "" then .error [⟨some "status", requiredError⟩]
  else
    match statusOf text with
    | some status => .ok status
    | none => .error [⟨some "status",
        "Select a valid choice. " ++ text ++ " is not one of the available choices."⟩]

def reasonField : CharField := { name := "reason" }

def decisionReasonField : CharField := { name := "decision_reason", required := false }

/-- `ErasureRequestAdminForm.clean`, on the fields that passed. -/
def clean (status : Option ErasureStatus) (decisionReason : Option (List Char)) : Option String :=
  let decisionReason := strip isSpace (decisionReason.getD [])
  if (status = some .denied ∨ status = some .processed) ∧ decisionReason = [] then
    some "Decision reason is required for denied or processed requests."
  else none

def formError : Option String → List FormError
  | some message => [⟨none, message⟩]
  | none => []

/-- `form.is_valid()`: every field is cleaned, then the form as a whole. -/
def fullClean (form : Submission) (db : Db) : Except (List FormError) Cleaned :=
  match userField form.user db, reasonField.clean form.reason, statusField form.status,
      decisionReasonField.clean form.decisionReason with
  | .ok user, .ok reason, .ok status, .ok decisionReason =>
    match clean (some status) (some decisionReason) with
    | none => .ok ⟨user, reason, status, decisionReason⟩
    | some message => .error [⟨none, message⟩]
  | user, reason, status, decisionReason =>
    .error (errors user ++ errors reason ++ errors status ++ errors decisionReason ++
      formError (clean status.toOption decisionReason.toOption))

/-- The form's instance once the form is valid. -/
def constructInstance (cleaned : Cleaned) (obj : ErasureRequest) : ErasureRequest :=
  { obj with
    user := cleaned.user
    reason := cleaned.reason
    status := cleaned.status
    decisionReason := cleaned.decisionReason }

/-- `save_model`; what is not processed is written back with every column. -/
def saveModel (obj : ErasureRequest) (adminUser : UserId) (token : List Char) (now : Instant)
    (db : Db) : Db :=
  if obj.status = .processed then (process obj adminUser obj.decisionReason token now db).2
  else
    let obj :=
      if obj.status = .denied ∧ obj.decidedAt = none then
        { obj with decidedAt := some now, decidedBy := some adminUser }
      else obj
    { db with erasureRequests := db.erasureRequests.upsert obj }

inductive Response where
  | missing
  | invalid (errors : List FormError)
  | changed
  deriving DecidableEq, Repr

/-- The change view on a submitted form. -/
def changeView (objectId : Nat) (adminUser : UserId) (form : Submission) (token : List Char)
    (now : Instant) (db : Db) : Response × Db :=
  match db.erasureRequests.find objectId with
  | none => (.missing, db)
  | some obj =>
    match fullClean form db with
    | .error errors => (.invalid errors, db)
    | .ok cleaned => (.changed, saveModel (constructInstance cleaned obj) adminUser token now db)

/-- What processing the request with the key `id` is to leave behind. -/
structure Erased (id : Nat) (user : UserId) (token : List Char) (db : Db) : Prop where
  request : ∃ e ∈ db.erasureRequests, e.id = id ∧ e.status = .processed ∧
    e.decidedBy.isSome ∧ e.processedBy.isSome
  anonymised : ∃ u ∈ db.users, u.id = user ∧ u.username = anonymousUsername token ∧
    u.email = anonymousEmail token ∧ u.firstName = [] ∧ u.lastName = [] ∧ u.password = none ∧
    u.isActive = false ∧ u.groups = ∅ ∧ u.userPermissions = ∅
  objectPermissions : ∀ p ∈ db.userObjectPermissions, p.user ≠ user
  keys : ∀ k ∈ db.sshKeys, k.user = user → k.isActive = false
  certificates : ∀ c ∈ db.sshCertificates, c.user = user → c.isActive = false
  accessRequests : ∀ r ∈ db.accessRequests, r.requester = user →
    r.status ≠ .pending ∧ r.status ≠ .approved

/-- `process` keeps its promise when it is called on the request as it is stored. -/
theorem process_erases {db : Db} {e : ErasureRequest} {u : User} (adminUser : UserId)
    (decisionReason token : List Char) (now : Instant) (he : e ∈ db.erasureRequests)
    (hs : e.status ≠ .processed) (hu : u ∈ db.users) (hid : u.id = e.user) :
    Erased e.id e.user token (process e adminUser decisionReason token now db).2 := by
  rw [process, if_neg hs]
  constructor
  · refine ⟨(processed adminUser decisionReason now).apply e, ?_, rfl, rfl, rfl, rfl⟩
    exact (Table.mem_update _ _ _ _).mpr ⟨e, he, by simp⟩
  · refine ⟨(anonymous token).apply u, ?_, hid, rfl, rfl, rfl, rfl, rfl, rfl, rfl, rfl⟩
    exact (Table.mem_update _ _ _ _).mpr ⟨u, hu, by simp [hid]⟩
  · intro p hp
    simpa using (Finset.mem_filter.mp hp).2
  · exact fun k hk => revokedKey_inactive hk
  · exact fun c hc => revokedCertificate_inactive hc
  · intro r hr hru
    obtain ⟨_, h₁, h₂⟩ | ⟨hne, _⟩ := mem_erasedRequests hr
    · exact ⟨h₁, h₂⟩
    · exact absurd hru hne

/-- An instance that carries the status already is left at the guard of `process`. -/
theorem saveModel_processed {obj : ErasureRequest} (adminUser : UserId) (token : List Char)
    (now : Instant) (db : Db) (h : obj.status = .processed) :
    saveModel obj adminUser token now db = db := by
  rw [saveModel, if_pos h, process, if_pos h]

/-- The change view writes the request and no other row, whatever is submitted. -/
theorem changeView_frame (objectId : Nat) (adminUser : UserId) (form : Submission)
    (token : List Char) (now : Instant) (db : Db) :
    ∃ t, (changeView objectId adminUser form token now db).2 = { db with erasureRequests := t } := by
  unfold changeView
  split
  · exact ⟨_, rfl⟩
  · split
    · exact ⟨_, rfl⟩
    · next obj _ _ cleaned _ =>
      by_cases hs : (constructInstance cleaned obj).status = .processed
      · rw [saveModel_processed adminUser token now db hs]
        exact ⟨_, rfl⟩
      · rw [saveModel, if_neg hs]
        exact ⟨_, rfl⟩

/-- A form that denies a request stamps the decision on it, once. -/
theorem changeView_denied {objectId : Nat} {obj : ErasureRequest} {db : Db} {form : Submission}
    {cleaned : Cleaned} (adminUser : UserId) (token : List Char) (now : Instant)
    (hobj : db.erasureRequests.find objectId = some obj) (hclean : fullClean form db = .ok cleaned)
    (hs : cleaned.status = .denied) :
    ∃ e, (changeView objectId adminUser form token now db).2.erasureRequests.find objectId = some e ∧
      e.status = .denied ∧ e.decidedAt = some (obj.decidedAt.getD now) := by
  have hid : obj.id = objectId := ((Table.find_eq_some _ _ _).mp hobj).2
  simp only [changeView, hobj, hclean, saveModel, constructInstance, hs, reduceCtorEq, if_false,
    true_and]
  cases hd : obj.decidedAt with
  | none =>
    rw [if_pos rfl]
    exact ⟨_, (Table.find_upsert _ _ _).trans (if_pos hid), rfl, rfl⟩
  | some d =>
    rw [if_neg (by simp)]
    exact ⟨_, (Table.find_upsert _ _ _).trans (if_pos hid), rfl, rfl⟩

/-- Saving a stored request as processed processes nothing: the form is accepted, no
row changes, and the request keeps the status it had. -/
theorem never_erased {objectId : Nat} {obj : ErasureRequest} {db : Db} {form : Submission}
    {cleaned : Cleaned} (adminUser : UserId) (token : List Char) (now : Instant)
    (hobj : db.erasureRequests.find objectId = some obj) (hpre : obj.status ≠ .processed)
    (hclean : fullClean form db = .ok cleaned) (hs : cleaned.status = .processed) :
    changeView objectId adminUser form token now db = (.changed, db) ∧
      ¬ Erased objectId cleaned.user token (changeView objectId adminUser form token now db).2 := by
  have hview : changeView objectId adminUser form token now db = (.changed, db) := by
    simp only [changeView, hobj, hclean]
    rw [saveModel_processed adminUser token now db hs]
  refine ⟨hview, ?_⟩
  rw [hview]
  rintro ⟨⟨e, he, hid, hst, _⟩, _⟩
  obtain ⟨ho, hok⟩ := (Table.find_eq_some _ _ _).mp hobj
  have heq : e = obj := Table.eq_of_key _ he ho (hid.trans hok.symm)
  exact hpre (heq ▸ hst)

/-- An active user with one request to be erased. -/
def pendingDb : Db where
  users := Table.empty.insert
    { id := 1, username := "alice".toList, email := "alice@example.com".toList,
      firstName := "Alice".toList, lastName := "Smith".toList, password := some "hash",
      isActive := true, isStaff := false, isSuperuser := false, lastLogin := none,
      groups := ∅, userPermissions := ∅ }
  erasureRequests := Table.empty.insert
    { id := 7, user := 1, reason := "please erase me".toList, status := .pending,
      requestedAt := 0, decidedAt := none, decidedBy := none, decisionReason := [],
      processedAt := none, processedBy := none }

def processForm : Submission :=
  ⟨some 1, "please erase me".toList, "processed", "verified".toList⟩

theorem never_erased_pending :
    changeView 7 2 processForm "0f".toList 50 pendingDb = (.changed, pendingDb) ∧
      ¬ Erased 7 1 "0f".toList (changeView 7 2 processForm "0f".toList 50 pendingDb).2 :=
  never_erased 2 "0f".toList 50 rfl (by decide)
    (show _ = Except.ok ⟨1, "please erase me".toList, .processed, "verified".toList⟩ from rfl) rfl

/-- The administrator is told the request was changed; its user is still active. -/
theorem still_active :
    ¬ ∀ (objectId : Nat) (adminUser : UserId) (form : Submission) (token : List Char)
        (now : Instant) (db : Db) (obj : ErasureRequest) (cleaned : Cleaned),
      db.erasureRequests.find objectId = some obj → obj.status ≠ .processed →
      fullClean form db = .ok cleaned → cleaned.status = .processed →
      Erased objectId cleaned.user token (changeView objectId adminUser form token now db).2 := by
  intro h
  have herased := h 7 2 processForm "0f".toList 50 pendingDb _
    ⟨1, "please erase me".toList, .processed, "verified".toList⟩ rfl (by decide) rfl rfl
  obtain ⟨u, hu, _, _, _, _, _, _, hactive, _⟩ := herased.anonymised
  have hrows : (changeView 7 2 processForm "0f".toList 50 pendingDb).2.users.rows =
      pendingDb.users.rows := rfl
  rw [Table.mem_def, hrows] at hu
  simp [pendingDb, Table.insert] at hu
  rw [hu] at hactive
  cases hactive

end Keywarden.ErasureAdmin
