import Keywarden.EnrollmentRun
import Keywarden.Forms

/-!
# The authorities of the agents in the admin

`AgentCertificateAuthorityAdmin` in `apps/servers/admin.py`. Saving an active authority
deactivates all others, revoking one deactivates it and dates the revocation, and
enrollment uses an authority that is active and has no such date.
-/
namespace Keywarden.AgentAuthorities

open Rows Text Forms Keys Transitions
open Enrollment (Deployment loadAgentCa)

/-- A row: what enrollment reads, and the other columns. -/
structure AgentCertificateAuthority extends Enrollment.AgentCertificateAuthority where
  id : Nat
  name : List Char
  fingerprint : List Char
  serial : List Char
  createdBy : Option UserId
  deriving DecidableEq

instance : Keyed AgentCertificateAuthority Nat := ⟨AgentCertificateAuthority.id⟩

@[simp] theorem key_authority (ca : AgentCertificateAuthority) : Keyed.key ca = ca.id := rfl

/-- A generated key with its certificate: PEM texts that load again. -/
structure Material (D : Deployment) where
  certPem : List Char
  keyPem : List Char
  fingerprint : List Char
  serial : List Char
  certPem_ne : certPem ≠ []
  keyPem_ne : keyPem ≠ []
  loadsCertificate : (D.loadPemCertificate certPem).isSome = true
  loadsKey : D.loadPemPrivateKey keyPem = true

/-- Who sends a request and when, and what generating a key and a certificate for a name
would give; the builder refuses some names. -/
structure Request (D : Deployment) where
  caller : Caller
  now : Instant
  generate : List Char → Except Raised (Material D)

variable {D : Deployment}

/-! ## The model -/

def revoke (now : Instant) : Table.Edit AgentCertificateAuthority where
  apply ca := { ca with isActive := false, revokedAt := some now }
  key_apply _ := rfl

def ensureMaterial (request : Request D) (ca : AgentCertificateAuthority) :
    Except Raised AgentCertificateAuthority :=
  if ca.certPem ≠ [] ∧ ca.keyPem ≠ [] then .ok ca
  else (request.generate ca.name).map fun m =>
    { ca with
      certPem := m.certPem
      keyPem := m.keyPem
      fingerprint := m.fingerprint
      serial := m.serial }

/-! ## The admin -/

def deactivate : Table.Edit AgentCertificateAuthority where
  apply ca := { ca with isActive := false }
  key_apply _ := rfl

def setCreatedBy (caller : Caller) (obj : AgentCertificateAuthority) : AgentCertificateAuthority :=
  if caller.isAuthenticated ∧ obj.createdBy = none then { obj with createdBy := some caller.id }
  else obj

/-- `exclude(pk=obj.pk).update(is_active=False)`. -/
def deactivateOthers (obj : AgentCertificateAuthority) (t : Table AgentCertificateAuthority) :
    Table AgentCertificateAuthority :=
  if obj.isActive then t.update (fun ca => decide (ca.id ≠ obj.id)) deactivate else t

/-- `save_model`. An instance that is added is given here with the key that it gets by
the insertion, which no row has yet. -/
def saveModel (request : Request D) (obj : AgentCertificateAuthority)
    (t : Table AgentCertificateAuthority) : Except Raised (Table AgentCertificateAuthority) :=
  (ensureMaterial request (setCreatedBy request.caller obj)).map fun obj =>
    (deactivateOthers obj t).upsert obj

/-- The action on the rows of its queryset, each with the time of its revocation. -/
def revokeSelected (queryset : List (Nat × Instant)) (t : Table AgentCertificateAuthority) :
    Table AgentCertificateAuthority :=
  queryset.foldl (fun t (id, now) => t.update (fun ca => decide (ca.id = id)) (revoke now)) t

/-- The fields that are not read-only, as submitted. -/
structure Submission where
  name : List Char
  isActive : Bool

def nameField : CharField := { name := "name", maxLength := some 128 }

/-- The form's instance, once the form is valid. -/
def constructInstance (name : List Char) (isActive : Bool) (obj : AgentCertificateAuthority) :
    AgentCertificateAuthority :=
  { obj with name := name, isActive := isActive }

/-- The instance of the form that adds an authority. -/
def blank (now : Instant) (id : Nat) : AgentCertificateAuthority where
  id := id
  name := "Keywarden Agent CA".toList
  certPem := []
  keyPem := []
  fingerprint := []
  serial := []
  createdAt := now
  revokedAt := none
  isActive := true
  createdBy := none

/-- A submitted form. The view is one transaction: what raises changes nothing. -/
def submit (request : Request D) (form : Submission) (obj : AgentCertificateAuthority)
    (t : Table AgentCertificateAuthority) : Table AgentCertificateAuthority :=
  match nameField.clean form.name with
  | .error _ => t
  | .ok name =>
    match saveModel request (constructInstance name form.isActive obj) t with
    | .error _ => t
    | .ok t' => t'

inductive Event (D : Deployment) where
  | add : Request D → Submission → Event D
  | change : Request D → Nat → Submission → Event D
  | revokeSelected : List (Nat × Instant) → Event D

def step (t : Table AgentCertificateAuthority) : Event D → Table AgentCertificateAuthority
  | .add request form => submit request form (blank request.now t.fresh) t
  | .change request id form =>
    match t.find id with
    | none => t
    | some obj => submit request form obj t
  | .revokeSelected queryset => revokeSelected queryset t

/-- At most one authority is active, and enrollment gets it. -/
structure Sound (D : Deployment) (t : Table AgentCertificateAuthority) : Prop where
  atMostOne : ∀ a ∈ t, ∀ b ∈ t, a.isActive = true → b.isActive = true → a = b
  notRevoked : ∀ ca ∈ t, ca.isActive = true → ca.revokedAt = none
  loaded : ∀ ca ∈ t, ca.isActive = true → ∃ subject,
    loadAgentCa D (t.toList.map (·.toAgentCertificateAuthority)) = .ok (subject, ca.certPem)

/-- No valid form activates an authority that is revoked. -/
def Safe (t : Table AgentCertificateAuthority) : Event D → Prop
  | .change _ id form => ∀ obj, t.find id = some obj →
      (∃ name, nameField.clean form.name = .ok name) → form.isActive = true → obj.revokedAt = none
  | _ => True

/-! ## The authority that enrollment gets -/

/-- The material of the row loads. -/
structure Loads (D : Deployment) (ca : AgentCertificateAuthority) : Prop where
  certPem : ca.certPem ≠ []
  keyPem : ca.keyPem ≠ []
  certificate : (D.loadPemCertificate ca.certPem).isSome = true
  key : D.loadPemPrivateKey ca.keyPem = true

/-- The only active authority is the one that is loaded. -/
theorem loadAgentCa_only {t : Table AgentCertificateAuthority} {ca : AgentCertificateAuthority}
    (hca : ca ∈ t) (hactive : ca.isActive = true) (hrevoked : ca.revokedAt = none)
    (honly : ∀ r ∈ t, r.isActive = true → r = ca) (hloads : Loads D ca) :
    ∃ subject, loadAgentCa D (t.toList.map (·.toAgentCertificateAuthority)) =
      .ok (subject, ca.certPem) := by
  have hthere : ca.toAgentCertificateAuthority ∈ (t.toList.map (·.toAgentCertificateAuthority)).filter
      fun ca => ca.isActive && ca.revokedAt.isNone := by
    rw [List.mem_filter]
    exact ⟨List.mem_map_of_mem hca, by rw [hactive, hrevoked]; rfl⟩
  have hfirst := first_of_forall_eq (r := fun a b => b.createdAt ≤ a.createdAt) hthere (by
    intro r hr
    rw [List.mem_filter, List.mem_map] at hr
    obtain ⟨⟨row, hrow, rfl⟩, huse⟩ := hr
    rw [Bool.and_eq_true] at huse
    rw [honly row hrow huse.1])
  obtain ⟨subject, hsubject⟩ := Option.isSome_iff_exists.mp hloads.certificate
  refine ⟨subject, ?_⟩
  unfold loadAgentCa
  simp only [hfirst, hsubject, hloads.key, if_true]

/-- The part of soundness that is about the two columns. -/
structure Exclusive (t : Table AgentCertificateAuthority) : Prop where
  atMostOne : ∀ a ∈ t, ∀ b ∈ t, a.isActive = true → b.isActive = true → a = b
  notRevoked : ∀ ca ∈ t, ca.isActive = true → ca.revokedAt = none

/-- Where all material loads, only the two columns matter. -/
theorem sound_iff_exclusive {t : Table AgentCertificateAuthority} (hloads : ∀ ca ∈ t, Loads D ca) :
    Sound D t ↔ Exclusive t := by
  constructor
  · exact fun h => ⟨h.atMostOne, h.notRevoked⟩
  · intro h
    refine ⟨h.atMostOne, h.notRevoked, fun ca hca hactive => ?_⟩
    exact loadAgentCa_only hca hactive (h.notRevoked ca hca hactive)
      (fun r hr hr' => h.atMostOne r hr ca hca hr' hactive) (hloads ca hca)

/-! ## A saved authority -/

/-- What is generated loads, and what was there stays. -/
theorem ensureMaterial_ok {request : Request D} {ca ca' : AgentCertificateAuthority}
    (h : ensureMaterial request ca = .ok ca') :
    ca'.isActive = ca.isActive ∧ ca'.revokedAt = ca.revokedAt ∧
      ((ca.certPem ≠ [] → Loads D ca) → Loads D ca') := by
  unfold ensureMaterial at h
  split at h
  · next hthere =>
    cases h
    exact ⟨rfl, rfl, fun hloads => hloads hthere.1⟩
  · cases hm : request.generate ca.name with
    | error e =>
      rw [hm] at h
      cases h
    | ok m =>
      rw [hm] at h
      cases h
      exact ⟨rfl, rfl, fun _ => ⟨m.certPem_ne, m.keyPem_ne, m.loadsCertificate, m.loadsKey⟩⟩

theorem ensureMaterial_loads {request : Request D} {ca : AgentCertificateAuthority}
    (h : Loads D ca) : ensureMaterial request ca = .ok ca := by
  rw [ensureMaterial, if_pos ⟨h.certPem, h.keyPem⟩]

theorem setCreatedBy_frame (caller : Caller) (obj : AgentCertificateAuthority) :
    (setCreatedBy caller obj).isActive = obj.isActive ∧
      (setCreatedBy caller obj).revokedAt = obj.revokedAt ∧
      (setCreatedBy caller obj).certPem = obj.certPem ∧
      (setCreatedBy caller obj).keyPem = obj.keyPem := by
  unfold setCreatedBy
  split <;> exact ⟨rfl, rfl, rfl, rfl⟩

theorem Loads.congr {ca ca' : AgentCertificateAuthority} (h : Loads D ca)
    (hcert : ca'.certPem = ca.certPem) (hkey : ca'.keyPem = ca.keyPem) : Loads D ca' :=
  ⟨hcert ▸ h.certPem, hkey ▸ h.keyPem, hcert ▸ h.certificate, hkey ▸ h.key⟩

theorem mem_deactivateOthers (obj : AgentCertificateAuthority) (t : Table AgentCertificateAuthority)
    (r : AgentCertificateAuthority) :
    r ∈ deactivateOthers obj t ∧ r.id ≠ obj.id ↔
      ∃ o ∈ t, o.id ≠ obj.id ∧ r = if obj.isActive then deactivate.apply o else o := by
  unfold deactivateOthers
  split
  · rw [Table.mem_update]
    constructor
    · rintro ⟨⟨o, ho, rfl⟩, hid⟩
      by_cases hne : o.id ≠ obj.id
      · exact ⟨o, ho, hne, if_pos (by simpa using hne)⟩
      · rw [if_neg (by simpa using hne)] at hid
        exact absurd hid hne
    · rintro ⟨o, ho, hne, rfl⟩
      exact ⟨⟨o, ho, (if_pos (by simpa using hne)).symm⟩, hne⟩
  · constructor
    · exact fun ⟨hr, hne⟩ => ⟨r, hr, hne, rfl⟩
    · rintro ⟨o, ho, hne, rfl⟩
      exact ⟨ho, hne⟩

/-- The rows after a save: the instance, and the others, inactive if it is active. -/
theorem saveModel_ok {request : Request D} {obj : AgentCertificateAuthority}
    {t t' : Table AgentCertificateAuthority} (h : saveModel request obj t = .ok t') :
    ∃ final, final.isActive = obj.isActive ∧ final.revokedAt = obj.revokedAt ∧
      ((obj.certPem ≠ [] → Loads D obj) → Loads D final) ∧
      ∀ r, r ∈ t' ↔ r = final ∨ ∃ o ∈ t, o.id ≠ final.id ∧
        r = if final.isActive then deactivate.apply o else o := by
  unfold saveModel at h
  cases hm : ensureMaterial request (setCreatedBy request.caller obj) with
  | error e =>
    rw [hm] at h
    cases h
  | ok final =>
    rw [hm] at h
    cases h
    obtain ⟨hactive, hrevoked, hloads⟩ := ensureMaterial_ok hm
    obtain ⟨hactive', hrevoked', hcert, hkey⟩ := setCreatedBy_frame request.caller obj
    refine ⟨final, hactive.trans hactive', hrevoked.trans hrevoked', fun hobj => hloads ?_, ?_⟩
    · exact fun hne => (hobj (hcert ▸ hne)).congr hcert hkey
    · intro r
      rw [Table.mem_upsert, key_authority, key_authority, mem_deactivateOthers]

/-- A save keeps all material loadable. -/
theorem saveModel_loads {request : Request D} {obj : AgentCertificateAuthority}
    {t t' : Table AgentCertificateAuthority} (h : saveModel request obj t = .ok t')
    (hobj : obj.certPem ≠ [] → Loads D obj) (hloads : ∀ ca ∈ t, Loads D ca) :
    ∀ ca ∈ t', Loads D ca := by
  obtain ⟨final, _, _, hfinal, hmem⟩ := saveModel_ok h
  intro ca hca
  obtain rfl | ⟨o, ho, _, rfl⟩ := (hmem ca).mp hca
  · exact hfinal hobj
  · split
    · exact (hloads o ho).congr rfl rfl
    · exact hloads o ho

/-- After a save at most one authority is active still, and it is no revoked one exactly
if the instance is not both. -/
theorem saveModel_exclusive_iff {request : Request D} {obj : AgentCertificateAuthority}
    {t t' : Table AgentCertificateAuthority} (h : saveModel request obj t = .ok t')
    (ht : Exclusive t) : Exclusive t' ↔ (obj.isActive = true → obj.revokedAt = none) := by
  obtain ⟨final, hactive, hrevoked, _, hmem⟩ := saveModel_ok h
  rw [← hactive, ← hrevoked]
  constructor
  · exact fun hx => hx.notRevoked final ((hmem final).mpr (.inl rfl))
  · intro hfinal
    cases hact : final.isActive with
    | true =>
      have honly : ∀ r ∈ t', r.isActive = true → r = final := by
        intro r hr hr'
        obtain rfl | ⟨o, _, _, rfl⟩ := (hmem r).mp hr
        · rfl
        · rw [hact] at hr'
          cases hr'
      refine ⟨fun a ha b hb ha' hb' => (honly a ha ha').trans (honly b hb hb').symm, ?_⟩
      intro r hr hr'
      rw [honly r hr hr']
      exact hfinal hact
    | false =>
      have hold : ∀ r ∈ t', r.isActive = true → r ∈ t := by
        intro r hr hr'
        obtain rfl | ⟨o, ho, _, rfl⟩ := (hmem r).mp hr
        · rw [hact] at hr'
          cases hr'
        · rw [hact]
          exact ho
      exact ⟨fun a ha b hb ha' hb' => ht.atMostOne a (hold a ha ha') b (hold b hb hb') ha' hb',
        fun r hr hr' => ht.notRevoked r (hold r hr hr') hr'⟩

/-! ## Revoked authorities -/

/-- The rows after the action are those before it, some of them inactive now. -/
theorem mem_revokeSelected {queryset : List (Nat × Instant)} {t : Table AgentCertificateAuthority}
    {r : AgentCertificateAuthority} (h : r ∈ revokeSelected queryset t) :
    ∃ o ∈ t, r.certPem = o.certPem ∧ r.keyPem = o.keyPem ∧ (r = o ∨ r.isActive = false) := by
  induction queryset generalizing t with
  | nil => exact ⟨r, h, rfl, rfl, .inl rfl⟩
  | cons selected queryset ih =>
    obtain ⟨o, ho, hcert, hkey, hro⟩ := ih h
    obtain ⟨row, hrow, rfl⟩ := (Table.mem_update _ _ _ _).mp ho
    by_cases hsel : row.id = selected.1
    · rw [if_pos (by simpa using hsel)] at hcert hkey hro
      refine ⟨row, hrow, hcert, hkey, .inr ?_⟩
      obtain rfl | hro := hro
      · rfl
      · exact hro
    · rw [if_neg (by simpa using hsel)] at hcert hkey hro
      exact ⟨row, hrow, hcert, hkey, hro⟩

theorem revokeSelected_loads {queryset : List (Nat × Instant)} {t : Table AgentCertificateAuthority}
    (h : ∀ ca ∈ t, Loads D ca) : ∀ ca ∈ revokeSelected queryset t, Loads D ca := by
  intro ca hca
  obtain ⟨o, ho, hcert, hkey, _⟩ := mem_revokeSelected hca
  exact (h o ho).congr hcert hkey

theorem revokeSelected_exclusive {queryset : List (Nat × Instant)}
    {t : Table AgentCertificateAuthority} (h : Exclusive t) : Exclusive (revokeSelected queryset t) := by
  have hold : ∀ r ∈ revokeSelected queryset t, r.isActive = true → r ∈ t := by
    intro r hr hactive
    obtain ⟨o, ho, _, _, rfl | hinactive⟩ := mem_revokeSelected hr
    · exact ho
    · rw [hactive] at hinactive
      cases hinactive
  exact ⟨fun a ha b hb ha' hb' => h.atMostOne a (hold a ha ha') b (hold b hb hb') ha' hb',
    fun r hr hr' => h.notRevoked r (hold r hr hr') hr'⟩

/-! ## Every sequence of calls -/

theorem submit_loads {request : Request D} {form : Submission} {obj : AgentCertificateAuthority}
    {t : Table AgentCertificateAuthority} (hobj : obj.certPem ≠ [] → Loads D obj)
    (h : ∀ ca ∈ t, Loads D ca) : ∀ ca ∈ submit request form obj t, Loads D ca := by
  unfold submit
  split
  · exact h
  · split
    · exact h
    · next hsave =>
      exact saveModel_loads hsave (fun hne => (hobj hne).congr rfl rfl) h

/-- Every row keeps material that loads. -/
theorem step_loads {t : Table AgentCertificateAuthority} (e : Event D) (h : ∀ ca ∈ t, Loads D ca) :
    ∀ ca ∈ step t e, Loads D ca := by
  cases e with
  | add request form => exact submit_loads (fun hne => absurd rfl hne) h
  | change request id form =>
    cases hfind : t.find id with
    | none => simpa only [step, hfind] using h
    | some obj =>
      simp only [step, hfind]
      exact submit_loads (fun _ => h obj ((Table.find_eq_some _ _ _).mp hfind).1) h
  | revokeSelected queryset => exact revokeSelected_loads h

/-- A change of a row that is there goes through whenever the form is valid. -/
theorem saveModel_loads_ok (request : Request D) {obj : AgentCertificateAuthority}
    (t : Table AgentCertificateAuthority) (h : Loads D obj) :
    ∃ t', saveModel request obj t = .ok t' := by
  obtain ⟨_, _, hcert, hkey⟩ := setCreatedBy_frame request.caller obj
  rw [saveModel, ensureMaterial_loads (h.congr hcert hkey)]
  exact ⟨_, rfl⟩

theorem change_exclusive_iff {t : Table AgentCertificateAuthority} (request : Request D)
    (form : Submission) {obj : AgentCertificateAuthority} (hobj : Loads D obj) (ht : Exclusive t) :
    Exclusive (submit request form obj t) ↔
      ((∃ name, nameField.clean form.name = .ok name) → form.isActive = true → obj.revokedAt = none) := by
  unfold submit
  cases hname : nameField.clean form.name with
  | error es =>
    refine iff_of_true ht ?_
    rintro ⟨_, h⟩
    cases h
  | ok name =>
    have hform : Loads D (constructInstance name form.isActive obj) := hobj.congr rfl rfl
    obtain ⟨t', hsave⟩ := saveModel_loads_ok request t hform
    have hiff := saveModel_exclusive_iff hsave ht
    simp only [hsave, hiff]
    exact ⟨fun h _ => h, fun h => h ⟨name, rfl⟩⟩

/-- One call keeps the columns sound exactly if it is safe. -/
theorem step_exclusive_iff {t : Table AgentCertificateAuthority} (e : Event D)
    (hloads : ∀ ca ∈ t, Loads D ca) (ht : Exclusive t) : Exclusive (step t e) ↔ Safe t e := by
  cases e with
  | add request form =>
    refine iff_of_true ?_ trivial
    simp only [step, submit]
    split
    · exact ht
    · split
      · exact ht
      · next hsave => exact (saveModel_exclusive_iff hsave ht).mpr fun _ => rfl
  | change request id form =>
    cases hfind : t.find id with
    | none =>
      simp only [step, Safe, hfind]
      refine iff_of_true ht fun obj hobj => ?_
      cases hobj
    | some obj =>
      have hobj := hloads obj ((Table.find_eq_some _ _ _).mp hfind).1
      simp only [step, Safe, hfind, change_exclusive_iff request form hobj ht, Option.some.injEq,
        forall_eq']
  | revokeSelected queryset => exact iff_of_true (revokeSelected_exclusive ht) trivial

/-- At most one authority is active and enrollment gets it, at every time, exactly if no
valid form ever activates an authority that is revoked. -/
theorem sound_iff (D : Deployment) (events : List (Event D)) :
    Always step (Sound D) .empty events ↔ Along step Safe .empty events := by
  have hstart : ∀ ca ∈ (Table.empty : Table AgentCertificateAuthority), Loads D ca :=
    fun ca hca => absurd hca (Table.not_mem_empty ca)
  refine always_iff_along (E := fun _ _ => True) (I := fun t => ∀ ca ∈ t, Loads D ca)
    (fun t e _ h => step_loads e h) (fun t e _ hloads ht => ?_) (along_of_mem _ fun _ _ => trivial)
    hstart ((sound_iff_exclusive hstart).mpr ?_)
  · rw [sound_iff_exclusive (step_loads e hloads)]
    exact step_exclusive_iff e hloads ((sound_iff_exclusive hloads).mp ht)
  · exact ⟨fun a ha => absurd ha (Table.not_mem_empty a), fun a ha => absurd ha (Table.not_mem_empty a)⟩

/-! ## A revoked authority that is activated again -/

def material : Material EnrollmentRun.plain where
  certPem := "ca".toList
  keyPem := "key".toList
  fingerprint := "00".toList
  serial := "1".toList
  certPem_ne := by decide
  keyPem_ne := by decide
  loadsCertificate := rfl
  loadsKey := rfl

def request : Request EnrollmentRun.plain := ⟨⟨1, true, [], []⟩, 10, fun _ => .ok material⟩

def reactivation : List (Event EnrollmentRun.plain) :=
  [.add request ⟨"CA".toList, true⟩, .revokeSelected [(1, 20)], .change request 1 ⟨"CA".toList, true⟩]

/-- The authority is active and revoked, and there is none for enrollment. -/
theorem active_but_revoked :
    ¬ ∀ (D : Deployment) (events : List (Event D)), Always step (Sound D) .empty events := by
  intro h
  have hlast := always_last (h EnrollmentRun.plain reactivation)
  have hrow : ∃ ca ∈ run step (.empty : Table AgentCertificateAuthority) reactivation,
      ca.isActive = true ∧ ca.revokedAt = some 20 := by decide
  obtain ⟨ca, hca, hactive, hrevoked⟩ := hrow
  rw [hlast.notRevoked ca hca hactive] at hrevoked
  cases hrevoked

end Keywarden.AgentAuthorities
