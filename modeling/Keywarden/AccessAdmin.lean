import Keywarden.AccessRun

/-!
# The admin site on access requests

`AccessRequestAdmin` edits a request through a form, in which the requester and
the server are fields like any other, and deletes one. An edit synchronises the
pair the row has afterwards, a deletion synchronises nothing. Either is safe for
the pair the row had before exactly when that pair does not need the row.
-/
namespace Keywarden.AccessAdmin

open Rows Access AccessRun

/-- The fields of the change form that are not read-only. -/
structure AccessRequestForm where
  requester : UserId
  server : ServerId
  status : Status
  reason : List Char
  requestShell : Bool
  requestLogs : Bool
  requestUsers : Bool
  expiresAt : Option Instant
  deriving DecidableEq, Repr

/-- The instance with the cleaned form copied onto it. -/
def AccessRequestForm.onto (form : AccessRequestForm) (r : AccessRequest) : AccessRequest :=
  { r with
    requester := form.requester
    server := form.server
    status := form.status
    reason := form.reason
    requestShell := form.requestShell
    requestLogs := form.requestLogs
    requestUsers := form.requestUsers
    expiresAt := form.expiresAt }

/-- `save_model` stamps a decision that has no stamp yet, then saves. -/
def saveModel (adminUser : UserId) (now : Instant) (obj : AccessRequest) (db : Db) : Db :=
  let decided := obj.status = .approved ∨ obj.status = .denied ∨ obj.status = .revoked ∨
    obj.status = .cancelled
  let obj := if decided ∧ obj.decidedAt = none then { obj with decidedAt := some now } else obj
  let obj := if decided ∧ obj.decidedBy = none then { obj with decidedBy := some adminUser } else obj
  saveRequest now obj db

def changeView (adminUser : UserId) (now : Instant) (id : Nat) (form : AccessRequestForm)
    (db : Db) : Db :=
  match db.accessRequests.find id with
  | none => db
  | some r => saveModel adminUser now (form.onto r) db

/-- `obj.delete()`. No receiver is connected to `post_delete`. -/
def deleteView (id : Nat) (db : Db) : Db :=
  { db with accessRequests := db.accessRequests.delete id }

inductive AdminOp where
  | change : Nat → AccessRequestForm → AdminOp
  | delete : Nat → AdminOp

def apply (adminUser : UserId) (now : Instant) (db : Db) : AdminOp → Db
  | .change id form => changeView adminUser now id form db
  | .delete id => deleteView id db

/-- Every grant is backed by an approved request of the pair that has not run out. -/
def Backed (now : Instant) (db : Db) : Prop := held db ⊆ entitled now db

/-- Another row grants the pair of `r`. -/
def OtherGrant (now : Instant) (db : Db) (r : AccessRequest) : Prop :=
  ∃ o ∈ db.accessRequests, o.id ≠ r.id ∧ (o.requester, o.server) = (r.requester, r.server) ∧
    o.status = .approved ∧ unexpired now o = true

/-- The pair of `r` can lose the row: it holds no grant, or another row backs it. -/
def Dispensable (now : Instant) (db : Db) (r : AccessRequest) : Prop :=
  HoldsView db r.requester r.server → OtherGrant now db r

/-- The operation leaves the row with its pair or takes it from one that can lose it. -/
def Safe (now : Instant) (db : Db) : AdminOp → Prop
  | .change id form => ∀ r ∈ db.accessRequests, r.id = id →
      (form.requester, form.server) = (r.requester, r.server) ∨ Dispensable now db r
  | .delete id => ∀ r ∈ db.accessRequests, r.id = id → Dispensable now db r

theorem saveModel_eq (adminUser : UserId) (now : Instant) (obj : AccessRequest) (db : Db) :
    ∃ obj', saveModel adminUser now obj db = saveRequest now obj' db ∧ obj'.id = obj.id ∧
      obj'.requester = obj.requester ∧ obj'.server = obj.server := by
  refine ⟨_, rfl, ?_⟩
  split <;> split <;> exact ⟨rfl, rfl, rfl⟩

/-- Saving over `r` a row of another pair: what `r`'s pair holds must be backed
by another row. -/
theorem backed_save_iff {now : Instant} {db : Db} {r obj : AccessRequest} (h : Backed now db)
    (hr : r ∈ db.accessRequests) (hid : obj.id = r.id) :
    Backed now (saveRequest now obj db) ↔
      (obj.requester, obj.server) = (r.requester, r.server) ∨ Dispensable now db r := by
  have hmem : ∀ o : AccessRequest, (o.requester, o.server) ≠ (obj.requester, obj.server) →
      (o ∈ db.accessRequests.save obj ↔ o ∈ db.accessRequests ∧ o.id ≠ r.id) := by
    intro o ho
    rw [Table.mem_save, key_accessRequest, key_accessRequest, hid]
    constructor
    · rintro (⟨rfl, _⟩ | hx)
      · exact absurd rfl ho
      · exact hx
    · exact .inr
  constructor
  · intro hb
    by_cases hp : (obj.requester, obj.server) = (r.requester, r.server)
    · exact .inl hp
    · right
      intro hv
      have hheld : (r.requester, r.server) ∈ held (saveRequest now obj db) := by
        rw [saveRequest, held_assign, mem_held_sync, if_neg hp]
        exact hv
      have hent := hb hheld
      rw [saveRequest, entitled_assign] at hent
      obtain ⟨o, ho, hop, hs, hu⟩ := hent
      obtain ⟨ho, hne⟩ := (hmem o (by rw [hop]; exact Ne.symm hp)).mp ho
      exact ⟨o, ho, hne, hop, hs, hu⟩
  · intro hcond p hp
    rw [saveRequest, held_assign, mem_held_sync] at hp
    rw [saveRequest, entitled_assign]
    by_cases he : (obj.requester, obj.server) = p
    · rw [if_pos he] at hp
      exact hp
    · rw [if_neg he] at hp
      have hback : ∃ o ∈ db.accessRequests, o.id ≠ r.id ∧ (o.requester, o.server) = p ∧
          o.status = .approved ∧ unexpired now o = true := by
        by_cases hpr : (r.requester, r.server) = p
        · obtain hc | hc := hcond
          · exact absurd (hc.trans hpr) he
          · subst hpr
            exact hc hp
        · obtain ⟨o, ho, hop, hs, hu⟩ := h hp
          refine ⟨o, ho, fun hoid => hpr ?_, hop, hs, hu⟩
          rw [← Table.eq_of_key _ ho hr hoid]
          exact hop
      obtain ⟨o, ho, hne, hop, hs, hu⟩ := hback
      exact ⟨o, (hmem o (by rw [hop]; exact Ne.symm he)).mpr ⟨ho, hne⟩, hop, hs, hu⟩

theorem backed_delete_iff {now : Instant} {db : Db} {r : AccessRequest} (h : Backed now db)
    (hr : r ∈ db.accessRequests) :
    Backed now (deleteView r.id db) ↔ Dispensable now db r := by
  constructor
  · intro hb hv
    obtain ⟨o, ho, hop, hs, hu⟩ := hb (show (r.requester, r.server) ∈ held (deleteView r.id db) from hv)
    obtain ⟨ho, hne⟩ := (Table.mem_delete _ _ _).mp ho
    exact ⟨o, ho, hne, hop, hs, hu⟩
  · intro hd p hp
    obtain ⟨o, ho, hop, hs, hu⟩ := h (show p ∈ held db from hp)
    by_cases hoid : o.id = r.id
    · have hor := Table.eq_of_key _ ho hr hoid
      subst hor
      have hv : HoldsView db o.requester o.server := by
        have hp' : HoldsView db p.1 p.2 := hp
        rwa [← hop] at hp'
      obtain ⟨q, hq, hne, hqp, hqs, hqu⟩ := hd hv
      exact ⟨q, (Table.mem_delete _ _ _).mpr ⟨hq, hne⟩, hqp.trans hop, hqs, hqu⟩
    · exact ⟨o, (Table.mem_delete _ _ _).mpr ⟨ho, hoid⟩, hop, hs, hu⟩

/-- From a state in which every grant is backed, an edit or a deletion keeps it so
exactly when the pair the row had before does not depend on the row. -/
theorem backed_apply_iff (adminUser : UserId) (now : Instant) (db : Db) (h : Backed now db)
    (op : AdminOp) : Backed now (apply adminUser now db op) ↔ Safe now db op := by
  cases op with
  | change id form =>
    simp only [apply, changeView, Safe]
    cases hf : db.accessRequests.find id with
    | none =>
      have hno := (Table.find_eq_none _ _).mp hf
      exact ⟨fun _ r hr hid => absurd hid (hno r hr), fun _ => h⟩
    | some r =>
      obtain ⟨hr, hid⟩ := (Table.find_eq_some _ _ _).mp hf
      obtain ⟨obj, heq, hoid, hreq, hserv⟩ := saveModel_eq adminUser now (form.onto r) db
      simp only [heq]
      rw [backed_save_iff h hr hoid, hreq, hserv]
      constructor
      · intro hc o ho hoid'
        rw [Table.eq_of_key _ ho hr (hoid'.trans hid.symm)]
        exact hc
      · intro hc
        exact hc r hr hid
  | delete id =>
    simp only [apply, Safe]
    cases hf : db.accessRequests.find id with
    | none =>
      have hno := (Table.find_eq_none _ _).mp hf
      constructor
      · exact fun _ r hr hid => absurd hid (hno r hr)
      · intro _ p hp
        obtain ⟨o, ho, hop, hs, hu⟩ := h (show p ∈ held db from hp)
        exact ⟨o, (Table.mem_delete _ _ _).mpr ⟨ho, hno o ho⟩, hop, hs, hu⟩
    | some r =>
      obtain ⟨hr, hid⟩ := (Table.find_eq_some _ _ _).mp hf
      subst hid
      simp only [key_accessRequest] at *
      rw [backed_delete_iff h hr]
      constructor
      · intro hc o ho hoid
        rw [Table.eq_of_key _ ho hr hoid]
        exact hc
      · intro hc
        exact hc r hr rfl

theorem oneGrant_backed : Backed 10 oneGrant := by
  intro p hp
  rw [oneGrant_held hp]
  exact ⟨⟨1, 7, 1, .approved, [], true, false, false, 0, some 0, none, some 2⟩, by decide, rfl, rfl,
    rfl⟩

/-- The request edited in place, to run out at 20. -/
theorem backed_after_edit :
    Backed 10 (apply 2 10 oneGrant (.change 1 ⟨7, 1, .approved, [], true, false, false, some 20⟩)) :=
  (backed_apply_iff 2 10 oneGrant oneGrant_backed _).mpr (by
    intro r hr _
    left
    have hr' : r = ⟨1, 7, 1, .approved, [], true, false, false, 0, some 0, none, some 2⟩ := by
      simpa [oneGrant, Table.mem_def] using hr
    rw [hr'])

/-- Deleting the request leaves its grant behind. -/
theorem delete_keeps_grant :
    ¬ ∀ (adminUser : UserId) (now : Instant) (db : Db), Backed now db →
      ∀ op, Backed now (apply adminUser now db op) := by
  intro h
  have hb := h 2 10 oneGrant oneGrant_backed (.delete 1)
  obtain ⟨r, hr, _⟩ := hb (show ((7, 1) : UserId × ServerId) ∈ held _ by
    change HoldsView (apply 2 10 oneGrant (.delete 1)) 7 1
    decide)
  have hempty : (apply 2 10 oneGrant (.delete 1)).accessRequests.rows = [] := rfl
  rw [Table.mem_def, hempty] at hr
  exact absurd hr (List.not_mem_nil)

end Keywarden.AccessAdmin
