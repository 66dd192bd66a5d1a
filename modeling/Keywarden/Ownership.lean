import Keywarden.Writes

/-!
# Isolation of users

In every run from a site without keys and requests, an ordinary user holds permissions
on their own objects only. So the handlers stop them at everybody else's, and whatever
others do leaves a user's rows as they are.
-/
namespace Keywarden.Ownership

open Rows Text Transitions Keys Erasure Authorization ErasureRun Writes

/-! ## Owners -/

/-- Nobody but the owner holds a permission on an object, an active owner holds them
all, and a certificate is its key's owner's. An erasure takes the permissions away. -/
structure Owned (db : Db) : Prop where
  only : ∀ u p o, OwnerPerm p → ⟨u, p, o⟩ ∈ db.userObjectPermissions → Owns db u (permModel p) o
  holds : ∀ user ∈ db.users, user.isActive = true → ∀ p o, OwnerPerm p →
    Owns db user.id (permModel p) o → ⟨user.id, p, o⟩ ∈ db.userObjectPermissions
  certificate : ∀ c ∈ db.sshCertificates, Owns db c.user .sshkey c.key

/-- All that the user has is as it was. -/
structure Spared (u : UserId) (db db' : Db) : Prop where
  user : ∀ user : User, user.id = u → (user ∈ db'.users ↔ user ∈ db.users)
  permission : ∀ p o, (⟨u, p, o⟩ : UserObjectPermission) ∈ db'.userObjectPermissions ↔
    ⟨u, p, o⟩ ∈ db.userObjectPermissions
  request : ∀ r : AccessRequest, r.requester = u →
    (r ∈ db'.accessRequests ↔ r ∈ db.accessRequests)
  erasure : ∀ e : ErasureRequest, e.user = u → (e ∈ db'.erasureRequests ↔ e ∈ db.erasureRequests)
  key : ∀ k : SSHKey, k.user = u → (k ∈ db'.sshKeys ↔ k ∈ db.sshKeys)
  certificate : ∀ c : SSHCertificate, c.user = u →
    (c ∈ db'.sshCertificates ↔ c ∈ db.sshCertificates)

theorem Spared.refl (u : UserId) (db : Db) : Spared u db db :=
  ⟨fun _ _ => Iff.rfl, fun _ _ => Iff.rfl, fun _ _ => Iff.rfl, fun _ _ => Iff.rfl,
    fun _ _ => Iff.rfl, fun _ _ => Iff.rfl⟩

theorem Spared.trans {u : UserId} {a b c : Db} (hab : Spared u a b) (hbc : Spared u b c) :
    Spared u a c where
  user v hv := (hbc.user v hv).trans (hab.user v hv)
  permission p o := (hbc.permission p o).trans (hab.permission p o)
  request r hr := (hbc.request r hr).trans (hab.request r hr)
  erasure e he := (hbc.erasure e he).trans (hab.erasure e he)
  key k hk := (hbc.key k hk).trans (hab.key k hk)
  certificate c hc := (hbc.certificate c hc).trans (hab.certificate c hc)

/-- What a write makes sure of: the owners stay the owners, and only what users of `A`
have is touched. -/
def Acts (A : UserId → Prop) (db db' : Db) : Prop :=
  Owned db → Owned db' ∧ ∀ u, ¬ A u → Spared u db db'

theorem Acts.refl (A : UserId → Prop) (db : Db) : Acts A db db :=
  fun h => ⟨h, fun u _ => Spared.refl u db⟩

theorem Acts.trans {A : UserId → Prop} {a b c : Db} (hab : Acts A a b) (hbc : Acts A b c) :
    Acts A a c := by
  intro h
  obtain ⟨hb, hsb⟩ := hab h
  obtain ⟨hc, hsc⟩ := hbc hb
  exact ⟨hc, fun u hu => (hsb u hu).trans (hsc u hu)⟩

/-! ## One write -/

section Writes

variable {A : UserId → Prop} {db : Db}

/-- A write after which the objects have the same owners, and these the same permissions. -/
theorem Owned.congr {db' : Db} (h : Owned db) (howns : ∀ u m o, Owns db' u m o ↔ Owns db u m o)
    (hperms : ∀ p, OwnerPerm p.permission →
      (p ∈ db'.userObjectPermissions ↔ p ∈ db.userObjectPermissions))
    (husers : ∀ v ∈ db'.users, v.isActive = true → ∃ w ∈ db.users, w.id = v.id ∧ w.isActive = true)
    (hcert : ∀ c ∈ db'.sshCertificates, Owns db c.user .sshkey c.key) : Owned db' where
  only u p o hp hm := (howns _ _ _).mpr (h.only u p o hp ((hperms _ hp).mp hm))
  holds v hv hact p o hp ho := by
    obtain ⟨w, hw, hid, hwact⟩ := husers v hv hact
    rw [howns, ← hid] at ho
    exact (hperms _ hp).mpr (hid ▸ h.holds w hw hwact p o hp ho)
  certificate c hc := (howns _ _ _).mpr (hcert c hc)

/-- Tables that belong to nobody. -/
theorem acts_of_eq {db' : Db} (hu : db'.users = db.users)
    (hp : db'.userObjectPermissions = db.userObjectPermissions)
    (hr : db'.accessRequests = db.accessRequests) (he : db'.erasureRequests = db.erasureRequests)
    (hk : db'.sshKeys = db.sshKeys) (hc : db'.sshCertificates = db.sshCertificates) :
    Acts A db db' := by
  intro h
  refine ⟨h.congr ?_ ?_ ?_ ?_, fun u _ => ⟨?_, ?_, ?_, ?_, ?_, ?_⟩⟩
  · intro u m o
    cases m <;> simp only [Owns, hk, hr]
  · exact fun p _ => by rw [hp]
  · exact fun v hv hact => ⟨v, hu ▸ hv, rfl, hact⟩
  · exact fun c hcm => h.certificate c (hc ▸ hcm)
  · exact fun _ _ => by rw [hu]
  · exact fun _ _ => by rw [hp]
  · exact fun _ _ => by rw [hr]
  · exact fun _ _ => by rw [he]
  · exact fun _ _ => by rw [hk]
  · exact fun _ _ => by rw [hc]

/-- A change of the permissions of users of `A`, other than those on what they own. -/
theorem acts_perms {p : Finset UserObjectPermission}
    (howner : ∀ q, OwnerPerm q.permission → (q ∈ p ↔ q ∈ db.userObjectPermissions))
    (hA : ∀ q, ¬ A q.user → (q ∈ p ↔ q ∈ db.userObjectPermissions)) :
    Acts A db { db with userObjectPermissions := p } := fun h =>
  ⟨h.congr (fun u m o => by cases m <;> rfl) howner (fun v hv hact => ⟨v, hv, rfl, hact⟩)
    h.certificate, fun u hu => { Spared.refl u db with permission := fun q o => hA ⟨u, q, o⟩ hu }⟩

theorem acts_upsert {cert : SSHCertificate} (hcert : Owns db cert.user .sshkey cert.key)
    (hA : A cert.user) : Acts A db { db with sshCertificates := db.sshCertificates.upsert cert } := by
  intro h
  refine ⟨h.congr (fun u m o => by cases m <;> rfl) (fun _ _ => Iff.rfl)
    (fun v hv hact => ⟨v, hv, rfl, hact⟩) ?_, fun u hu => { Spared.refl u db with certificate := ?_ }⟩
  · intro c hc
    obtain rfl | ⟨hc, _⟩ := (Table.mem_upsert _ _ _).mp hc
    · exact hcert
    · exact h.certificate c hc
  · intro c hcu
    rw [Table.mem_upsert]
    constructor
    · rintro (rfl | ⟨hc, _⟩)
      · exact absurd (hcu ▸ hA) hu
      · exact hc
    · intro hc
      refine .inr ⟨hc, fun hkey => hu ?_⟩
      have howns := h.certificate c hc
      rw [show c.key = cert.key from hkey] at howns
      rw [← hcu, howns.user hcert]
      exact hA

/-- A write to the keys that gives none of them another user. -/
theorem acts_keys {t : Table SSHKey}
    (h : Table.Extends (fun k => (k.id, k.user)) (fun _ => False) db.sshKeys t)
    (hA : ∀ k, ¬ A k.user → (k ∈ t ↔ k ∈ db.sshKeys)) : Acts A db { db with sshKeys := t } := by
  refine fun hown => ⟨hown.congr ?_ (fun _ _ => Iff.rfl) (fun v hv hact => ⟨v, hv, rfl, hact⟩)
    hown.certificate, fun u hu => { Spared.refl u db with key := fun k hk => hA k (hk ▸ hu) }⟩
  intro u m o
  cases m with
  | server | accessrequest => exact Iff.rfl
  | sshkey => simpa [Owns] using h.exists_iff (o, u)

theorem acts_requests {t : Table AccessRequest}
    (h : Table.Extends (fun r => (r.id, r.requester)) (fun _ => False) db.accessRequests t)
    (hA : ∀ r, ¬ A r.requester → (r ∈ t ↔ r ∈ db.accessRequests)) :
    Acts A db { db with accessRequests := t } := by
  refine fun hown => ⟨hown.congr ?_ (fun _ _ => Iff.rfl) (fun v hv hact => ⟨v, hv, rfl, hact⟩)
    hown.certificate, fun u hu => { Spared.refl u db with request := fun r hr => hA r (hr ▸ hu) }⟩
  intro u m o
  cases m with
  | server | sshkey => exact Iff.rfl
  | accessrequest => simpa [Owns] using h.exists_iff (o, u)

theorem acts_revokeKeys (now : Instant) {q : SSHKey → Bool}
    (hA : ∀ k ∈ db.sshKeys, q k = true → A k.user) :
    Acts A db { db with sshKeys := db.sshKeys.update q (revokedKey now) } := by
  refine acts_keys (Table.extends_update _ _ fun _ => rfl) fun k hk => ?_
  refine Table.mem_update_of_column (f := SSHKey.user) (fun _ => rfl) fun o ho hou => ?_
  by_contra hq
  rw [Bool.not_eq_false] at hq
  exact hk (hou ▸ hA o ho hq)

theorem acts_revokeCertificates (now : Instant) {q : SSHCertificate → Bool}
    (hA : ∀ c ∈ db.sshCertificates, q c = true → Owns db c.user .sshkey c.key → A c.user) :
    Acts A db { db with sshCertificates := db.sshCertificates.update q (revokedCertificate now) } := by
  intro h
  refine ⟨h.congr (fun u m o => by cases m <;> rfl) (fun _ _ => Iff.rfl)
    (fun v hv hact => ⟨v, hv, rfl, hact⟩) ?_, fun u hu => { Spared.refl u db with certificate := ?_ }⟩
  · intro c hc
    obtain ⟨o, ho, rfl⟩ := (Table.mem_update _ _ _ _).mp hc
    have howns := h.certificate o ho
    split <;> exact howns
  · intro c hcu
    refine Table.mem_update_of_column (f := SSHCertificate.user) (fun _ => rfl) fun o ho hou => ?_
    by_contra hq
    rw [Bool.not_eq_false] at hq
    exact hu (hcu ▸ hou ▸ hA o ho hq (h.certificate o ho))

/-- Marks of rows that keep their requester. -/
theorem acts_updateRequests {q : AccessRequest → Bool} {e : Table.Edit AccessRequest}
    (he : ∀ r, (e.apply r).requester = r.requester)
    (hA : ∀ r ∈ db.accessRequests, q r = true → A r.requester) :
    Acts A db { db with accessRequests := db.accessRequests.update q e } := by
  refine acts_requests (Table.extends_update _ _ fun r => ?_) fun r hr => ?_
  · exact Prod.ext (e.key_apply r) (he r)
  refine Table.mem_update_of_column he fun o ho hor => ?_
  by_contra hq
  rw [Bool.not_eq_false] at hq
  exact hr (hor ▸ hA o ho hq)

/-- An object comes into being together with the permissions of its owner. -/
theorem Owned.add {db' : Db} (h : Owned db) {m : ObjectModel} {o : Nat} {v : UserId}
    (howns : ∀ u n i, Owns db' u n i ↔ Owns db u n i ∨ (n = m ∧ i = o ∧ u = v))
    (hperm : ∀ q : UserObjectPermission, q ∈ db'.userObjectPermissions ↔
      (q.user = v ∧ q.object = o ∧ OwnerPerm q.permission ∧ permModel q.permission = m) ∨
        q ∈ db.userObjectPermissions)
    (husers : db'.users = db.users) (hcert : db'.sshCertificates = db.sshCertificates) : Owned db' where
  only u p i hp hm := by
    rw [howns]
    obtain ⟨hu, hi, -, hmodel⟩ | hm := (hperm _).mp hm
    · exact .inr ⟨hmodel, hi, hu⟩
    · exact .inl (h.only u p i hp hm)
  holds w hw hact p i hp hi := by
    rw [hperm]
    obtain hi | ⟨hmodel, hi, hu⟩ := (howns _ _ _).mp hi
    · exact .inr (h.holds w (husers ▸ hw) hact p i hp hi)
    · exact .inl ⟨hu, hi, hp, hmodel⟩
  certificate c hc := (howns _ _ _).mpr (.inl (h.certificate c (hcert ▸ hc)))

theorem acts_createKey {key : SSHKey} (hA : A key.user) :
    Acts A db (KeyApi.assignSshKeyPerms { key with id := db.sshKeys.fresh }
      { db with sshKeys := db.sshKeys.create fun id => { key with id := id } }) := by
  let db' := KeyApi.assignSshKeyPerms { key with id := db.sshKeys.fresh }
    { db with sshKeys := db.sshKeys.create fun id => { key with id := id } }
  have hmem : ∀ k : SSHKey, k ∈ db'.sshKeys ↔
      k ∈ db.sshKeys ∨ k = { key with id := db.sshKeys.fresh } :=
    Table.mem_create _ (fun id => { key with id := id }) fun _ => rfl
  have hperm : ∀ q : UserObjectPermission, q ∈ db'.userObjectPermissions ↔
      (q.user = key.user ∧ q.object = db.sshKeys.fresh ∧ OwnerPerm q.permission ∧
        permModel q.permission = .sshkey) ∨ q ∈ db.userObjectPermissions := by
    rintro ⟨v, p, o⟩
    simp only [db', KeyApi.assignSshKeyPerms, mem_assignPerm, UserObjectPermission.mk.injEq]
    cases p <;> simp [OwnerPerm, permModel, isAdd]
  have howns : ∀ u m o, Owns db' u m o ↔
      Owns db u m o ∨ (m = .sshkey ∧ o = db.sshKeys.fresh ∧ u = key.user) := by
    intro u m o
    cases m with
    | server | accessrequest => simp [Owns, db', KeyApi.assignSshKeyPerms, assignPerm]
    | sshkey =>
      simp only [Owns, hmem, true_and]
      constructor
      · rintro ⟨k, hk | rfl, hid, hu⟩
        · exact .inl ⟨k, hk, hid, hu⟩
        · exact .inr ⟨hid.symm, hu.symm⟩
      · rintro (⟨k, hk, hid, hu⟩ | ⟨rfl, rfl⟩)
        · exact ⟨k, .inl hk, hid, hu⟩
        · exact ⟨_, .inr rfl, rfl, rfl⟩
  refine fun h => ⟨h.add howns hperm rfl rfl,
    fun u hu => { Spared.refl u db with permission := fun p o => ?_, key := fun k hk => ?_ }⟩
  · exact (hperm _).trans (or_iff_right fun he => hu ((show u = key.user from he.1) ▸ hA))
  · exact (hmem k).trans (or_iff_left fun he => hu (by rw [← hk, he]; exact hA))

theorem acts_createRequest {mk : Nat → AccessRequest} (hid : ∀ n, (mk n).id = n)
    {r : AccessRequest} (hr : mk db.accessRequests.fresh = r) (hA : A r.requester) :
    Acts A db (assignPerm ⟨r.requester, .changeAccessrequest, r.id⟩
      (assignPerm ⟨r.requester, .viewAccessrequest, r.id⟩
        { db with accessRequests := db.accessRequests.create mk })) := by
  let db' := assignPerm ⟨r.requester, .changeAccessrequest, r.id⟩
    (assignPerm ⟨r.requester, .viewAccessrequest, r.id⟩
      { db with accessRequests := db.accessRequests.create mk })
  have hmem : ∀ q : AccessRequest, q ∈ db'.accessRequests ↔ q ∈ db.accessRequests ∨ q = r :=
    hr ▸ Table.mem_create _ mk hid
  have hperm : ∀ q : UserObjectPermission, q ∈ db'.userObjectPermissions ↔
      (q.user = r.requester ∧ q.object = r.id ∧ OwnerPerm q.permission ∧
        permModel q.permission = .accessrequest) ∨ q ∈ db.userObjectPermissions := by
    rintro ⟨v, p, o⟩
    simp only [db', mem_assignPerm, UserObjectPermission.mk.injEq]
    cases p <;> simp [OwnerPerm, permModel, isAdd]
  have howns : ∀ u m o, Owns db' u m o ↔
      Owns db u m o ∨ (m = .accessrequest ∧ o = r.id ∧ u = r.requester) := by
    intro u m o
    cases m with
    | server | sshkey => simp [Owns, db', assignPerm]
    | accessrequest =>
      simp only [Owns, hmem, true_and]
      constructor
      · rintro ⟨q, hq | rfl, hid, hu⟩
        · exact .inl ⟨q, hq, hid, hu⟩
        · exact .inr ⟨hid.symm, hu.symm⟩
      · rintro (⟨q, hq, hid, hu⟩ | ⟨rfl, rfl⟩)
        · exact ⟨q, .inl hq, hid, hu⟩
        · exact ⟨_, .inr rfl, rfl, rfl⟩
  refine fun h => ⟨h.add howns hperm rfl rfl,
    fun u hu => { Spared.refl u db with permission := fun p o => ?_, request := fun q hq => ?_ }⟩
  · exact (hperm _).trans (or_iff_right fun he => hu ((show u = r.requester from he.1) ▸ hA))
  · exact (hmem q).trans (or_iff_left fun he => hu (by rw [← hq, he]; exact hA))

/-- An update of users that makes nobody active. -/
theorem acts_users {db : Db} {q : User → Bool} {e : Table.Edit User}
    (hactive : ∀ v, (e.apply v).isActive = true → v.isActive = true)
    (hA : ∀ v ∈ db.users, q v = true → A v.id) :
    Acts A db { db with users := db.users.update q e } := by
  have hid : ∀ v, (e.apply v).id = v.id := e.key_apply
  refine fun h => ⟨h.congr (fun u m o => by cases m <;> rfl) (fun _ _ => Iff.rfl) ?_ h.certificate,
    fun u hu => { Spared.refl u db with user := ?_ }⟩
  · intro v hv hact
    obtain ⟨w, hw, rfl⟩ := (Table.mem_update _ _ _ _).mp hv
    by_cases hq : q w = true
    · rw [if_pos hq] at hact ⊢
      exact ⟨w, hw, (hid w).symm, hactive w hact⟩
    · rw [if_neg hq] at hact ⊢
      exact ⟨w, hw, rfl, hact⟩
  · intro v hv
    refine Table.mem_update_of_column (f := User.id) hid fun o ho hov => ?_
    by_contra hq
    rw [Bool.not_eq_false] at hq
    exact hu (hv ▸ hov ▸ hA o ho hq)

/-- An inactive user need not hold a permission. -/
theorem acts_dropPerms {db : Db} {user : UserId} (hA : A user)
    (hinactive : ∀ v ∈ db.users, v.id = user → v.isActive = false) :
    Acts A db { db with
      userObjectPermissions := db.userObjectPermissions.filter fun p => p.user ≠ user } := by
  have hmem : ∀ q : UserObjectPermission, q ∈ db.userObjectPermissions.filter (fun p => p.user ≠ user) ↔
      q ∈ db.userObjectPermissions ∧ q.user ≠ user := fun _ => Finset.mem_filter
  refine fun h => ⟨⟨?_, ?_, h.certificate⟩, fun u hu => { Spared.refl u db with permission := ?_ }⟩
  · exact fun u p o hp hm => h.only u p o hp ((hmem _).mp hm).1
  · intro v hv hact p o hp ho
    refine (hmem _).mpr ⟨h.holds v hv hact p o hp ho, fun hid => ?_⟩
    rw [hinactive v hv hid] at hact
    cases hact
  · exact fun p o => (hmem _).trans (and_iff_left fun hid => hu ((show u = user from hid) ▸ hA))

/-- An owner is assigned what an active owner holds already. -/
theorem acts_assignOwner {db : Db} {u : UserId} {p : Perm} {o : Nat} (hp : OwnerPerm p)
    (ho : Owns db u (permModel p) o)
    (hA : ¬ A u → ∃ v ∈ db.users, v.id = u ∧ v.isActive = true) :
    Acts A db (assignPerm ⟨u, p, o⟩ db) := by
  refine fun h => ⟨⟨?_, ?_, h.certificate⟩, fun w hw => { Spared.refl w db with permission := ?_ }⟩
  · intro w q i hq hm
    obtain heq | hm := (mem_assignPerm _ _ _).mp hm
    · cases heq
      exact ho
    · exact h.only w q i hq hm
  · exact fun v hv hact q i hq hi => (mem_assignPerm _ _ _).mpr (.inr (h.holds v hv hact q i hq hi))
  · intro q i
    refine (mem_assignPerm _ _ _).trans (or_iff_right_of_imp fun heq => ?_)
    cases heq
    obtain ⟨v, hv, rfl, hact⟩ := hA hw
    exact h.holds v hv hact p o hp ho


end Writes

theorem aside_acts {A : UserId → Prop} {now : Instant} {db db' : Db} (h : Aside A now db db') :
    Acts A db db' := by
  cases h with
  | authorities t => exact acts_of_eq rfl rfl rfl rfl rfl rfl
  | accounts t => exact acts_of_eq rfl rfl rfl rfl rfl rfl
  | certify howner hA => exact acts_upsert howner hA
  | revokeCertificates hA => exact acts_revokeCertificates now hA
  | insertKey _ _ _ _ hA => exact acts_createKey hA
  | saveKey hkey hsaved hA =>
    obtain ⟨_, _, _, rfl⟩ := hsaved.frame
    refine acts_keys (Table.extends_save hkey rfl rfl) fun k hk => ?_
    exact Table.mem_save_of_column (f := SSHKey.user) hkey rfl rfl fun he => hk (he ▸ hA)
  | revokeKeys hA => exact acts_revokeKeys now hA
  | assignOwner hp howner hA => exact acts_assignOwner hp howner hA
  | login hA =>
    refine acts_users (fun _ h => h) fun v _ hq => ?_
    rw [Bool.and_eq_true, decide_eq_true_eq] at hq
    exact hq.1 ▸ hA
  | insertErasure hid hA =>
    refine fun h => ⟨h.congr (fun u m o => by cases m <;> rfl) (fun _ _ => Iff.rfl)
      (fun v hv hact => ⟨v, hv, rfl, hact⟩) h.certificate,
      fun u hu => { Spared.refl u db with erasure := fun e he => ?_ }⟩
    exact (Table.mem_create _ _ hid e).trans (or_iff_left fun h => hu (by rw [← he, h]; exact hA))

/-- Each write keeps the owners, and touches no user but those of `A`. -/
theorem write_acts {A : UserId → Prop} {now : Instant} {db db' : Db} (h : Write A now db db') :
    Acts A db db' := by
  cases h with
  | aside h => exact aside_acts h
  | insertRequest hid hr _ _ _ _ hA => exact acts_createRequest hid hr hA
  | saveRequest hrow hsaved hA =>
    obtain ⟨_, _, _, _, rfl⟩ := hsaved.frame
    refine acts_requests (Table.extends_save hrow rfl rfl) fun q hq => ?_
    exact Table.mem_save_of_column (f := AccessRequest.requester) hrow rfl rfl fun he => hq (he ▸ hA)
  | expireRequest hr _ hA =>
    refine acts_updateRequests (fun _ => rfl) fun o ho hq => ?_
    rw [Table.eq_of_key _ ho hr (of_decide_eq_true hq)]
    exact hA
  | redactRequests hA => exact acts_updateRequests (fun _ => rfl) fun r _ hq => of_decide_eq_true hq ▸ hA
  | revokeRequests hA adminUser =>
    refine acts_updateRequests (fun _ => rfl) fun r _ hq => ?_
    rw [isOpen, Bool.and_eq_true, decide_eq_true_eq] at hq
    exact hq.1 ▸ hA
  | @grant p hp hA =>
    refine acts_perms (fun q hq => ?_) (fun q hq => ?_)
    · rw [Finset.mem_insert, or_iff_right]
      rintro rfl
      exact hp hq
    · rw [Finset.mem_insert, or_iff_right]
      rintro rfl
      exact hq hA
  | @withdraw p hp hA =>
    refine acts_perms (fun q hq => ?_) (fun q hq => ?_)
    · rw [Finset.mem_erase, and_iff_right]
      rintro rfl
      exact hp hq
    · rw [Finset.mem_erase, and_iff_right]
      rintro rfl
      exact hq hA
  | @anonymize user hA token =>
    have husers : Acts A db { db with
        users := db.users.update (fun u => u.id = user) (anonymous token) } :=
      acts_users (fun _ h => by cases h) fun v _ hq => of_decide_eq_true hq ▸ hA
    refine husers.trans (acts_dropPerms hA fun v hv hid => ?_)
    obtain ⟨w, hw, rfl⟩ := (Table.mem_update _ _ _ _).mp hv
    by_cases hwu : w.id = user
    · rw [if_pos (decide_eq_true hwu)]
      rfl
    · rw [if_neg (by simpa using hwu)] at hid
      exact absurd hid hwu
  | process hA adminUser reason =>
    refine fun h => ⟨h.congr (fun u m o => by cases m <;> rfl) (fun _ _ => Iff.rfl)
      (fun v hv hact => ⟨v, hv, rfl, hact⟩) h.certificate,
      fun u hu => { Spared.refl u db with erasure := fun e he => ?_ }⟩
    refine Table.mem_update_of_column (f := ErasureRequest.user) (fun _ => rfl) fun o ho hoe => ?_
    by_contra hq
    rw [Bool.not_eq_false] at hq
    exact hu (he ▸ hoe ▸ hA o ho (of_decide_eq_true hq))

theorem chain_acts {A : UserId → Prop} {now : Instant} {db db' : Db} (h : Chain A now db db') :
    Acts A db db' := by
  induction h with
  | refl => exact Acts.refl A db
  | tail _ hw ih => exact ih.trans (write_acts hw)

/-! ## Runs -/

/-- No keys and no requests yet, and nothing granted on any. -/
structure Fresh (site : Site) : Prop where
  keys : ∀ k, k ∉ site.sshKeys
  requests : ∀ r, r ∉ site.accessRequests
  certificates : ∀ c, c ∉ site.sshCertificates
  permissions : ∀ p ∈ site.userObjectPermissions, ¬ OwnerPerm p.permission
  groups : ∀ p ∈ site.groupObjectPermissions, ¬ OwnerPerm p.permission

/-- Permissions on keys and requests come from their ownership alone. -/
structure Sound (site : Site) : Prop where
  owned : Owned site.toDb
  groups : ∀ p ∈ site.groupObjectPermissions, ¬ OwnerPerm p.permission

theorem Fresh.sound {site : Site} (h : Fresh site) : Sound site := by
  refine ⟨⟨?_, ?_, ?_⟩, h.groups⟩
  · exact fun u p o hp hm => absurd hp (h.permissions _ hm)
  · intro v _ _ p o _ ho
    cases hm : permModel p <;> rw [hm] at ho
    · exact ho.elim
    · obtain ⟨r, hr, _⟩ := ho
      exact absurd hr (h.requests r)
    · obtain ⟨k, hk, _⟩ := ho
      exact absurd hk (h.keys k)
  · exact fun c hc => absurd hc (h.certificates c)

theorem step_groups (site : Site) (e : Event) :
    (step site e).groupObjectPermissions = site.groupObjectPermissions := by
  cases e with
  | syncObjectPerms =>
    obtain ⟨p, hp⟩ := syncObjectPerms_frame site
    simp only [step, hp, Site.over]
  | _ => rfl

theorem sound_step {site : Site} (e : Event) (h : Sound site) : Sound (step site e) :=
  ⟨(chain_acts (step_chain site e) h.owned).1, by rw [step_groups]; exact h.groups⟩

theorem sound_run {site : Site} (h : Fresh site) (events : List Event) :
    Sound (run step site events) :=
  run_preserves (fun _ e hs => sound_step e hs) h.sound events

/-- What the handlers are told of the permissions of an ordinary user. -/
theorem hasObjectPerm_iff {site : Site} {user : User} {caller : Caller} (h : Sound site)
    (hm : user ∈ site.users) (hrep : Represents site user caller)
    (hauth : caller.isAuthenticated = true) (hsuper : user.isSuperuser = false) {p : Perm}
    (hp : OwnerPerm p) (o : Nat) :
    caller.hasObjectPerm p o = true ↔ Owns site.toDb user.id (permModel p) o := by
  have hact : user.isActive = true := hrep.authenticated.symm.trans hauth
  have hgroup : ¬ ∃ g ∈ user.groups, (⟨g, p, o⟩ : GroupObjectPermission) ∈ site.groupObjectPermissions := by
    rintro ⟨g, _, hg⟩
    exact h.groups _ hg hp
  rw [hrep.objectPerm, hasObjectPerm, hact, hsuper, granted, decide_eq_false hgroup]
  simp only [Bool.true_and, Bool.false_or, Bool.or_false, decide_eq_true_eq]
  exact ⟨h.owned.only _ _ _ hp, h.owned.holds user hm hact p o hp⟩

/-- An authenticated user who is no administrator is no superuser either. -/
theorem not_superuser {site : Site} {user : User} {caller : Caller} (hn : NonAdministrator caller)
    (hrep : Represents site user caller) (hauth : caller.isAuthenticated = true) :
    user.isSuperuser = false := by
  have hperm := hn.requests
  rw [hrep.perm, hasPerm, ← hrep.authenticated, hauth] at hperm
  by_contra hsuper
  rw [Bool.not_eq_false] at hsuper
  simp [hsuper] at hperm

/-- The events of other users who are no administrators, and those in which nothing that
is the user's falls due or is about the user. -/
def Foreign (u : UserId) (site : Site) : Event → Prop
  | .access _ now op =>
    match op with
    | .createRequest caller _ | .updateRequest caller _ _ => Other caller
    | .expireAccessRequests => ∀ r ∈ site.accessRequests, r.requester = u →
        Access.isExpiring now r = false
    | .process self .. => ¬ Touched.Erases site u self
  | .keys e =>
    match e.op with
    | .createKey caller _ | .issueCertificate caller _ | .downloadCertificate caller _
    | .downloadCertificateHash caller _ | .updateKey caller _ _ | .deleteKey caller _ => Other caller
    | .process self .. => ¬ Touched.Erases site u self
  | .profile _ caller _ | .connect _ _ caller _ => Other caller
  | .login user _ => user ≠ u
  | .syncObjectPerms => Active site.toDb u
  | .syncReport .. => True
where
  Other (caller : Caller) : Prop :=
    Requests site caller ∧ (caller.isAuthenticated = true → caller.id ≠ u)

theorem Foreign.Other.owner {u : UserId} {site : Site} {caller : Caller} (h : Sound site)
    (hother : Foreign.Other u site caller) {p : Perm} (hp : OwnerPerm p) {o : Nat}
    (hauth : caller.isAuthenticated = true) (hperm : caller.hasObjectPerm p o = true) :
    ¬ Owns site.toDb u (permModel p) o := by
  obtain ⟨hreq, hne⟩ := hother
  obtain ⟨user, hm, hrep⟩ := hreq.represents hauth
  have howns := (hasObjectPerm_iff h hm hrep hauth
    (not_superuser hreq.nonAdministrator hrep hauth) hp o).mp hperm
  intro hu
  exact hne hauth (hrep.id.trans (howns.user hu))

/-- Others are stopped at whatever is the user's. -/
theorem Foreign.Other.reaches {u : UserId} {site : Site} {caller : Caller} (h : Sound site)
    (hother : Foreign.Other u site caller) {p : Perm} (hp : OwnerPerm p)
    (hmodel : permModel p = .sshkey) {keyId : Nat} : ¬ Touched.Reaches site u caller p keyId := by
  rintro ⟨key, hf, hu⟩
  have hauth : caller.isAuthenticated = true ∧ caller.hasObjectPerm p key.id = true := by
    unfold KeyApi.findKey at hf
    split at hf
    · cases hf
    · next hauth =>
      split at hf
      · cases hf
      · split at hf
        · next hperm =>
          cases hf
          exact ⟨by simpa using hauth, hperm⟩
        · cases hf
  refine hother.owner h hp hauth.1 hauth.2 ?_
  rw [hmodel]
  exact ⟨key, KeyRun.findKey_ok hf, rfl, hu⟩

theorem not_touched {u : UserId} {site : Site} {e : Event} (h : Sound site) (hf : Foreign u site e) :
    ¬ Touched site u e := by
  cases e with
  | access cfg now op =>
    cases op with
    | createRequest caller payload => exact fun ht => hf.2 ht.1 ht.2
    | updateRequest caller id payload =>
      rintro ⟨r, hr, _, hu, hauth, hperm⟩
      exact Foreign.Other.owner h hf (p := .changeAccessrequest) (by decide) hauth hperm
        ⟨r, hr, rfl, hu⟩
    | expireAccessRequests =>
      rintro ⟨r, hr, hu, hexp⟩
      rw [hf r hr hu] at hexp
      cases hexp
    | process self adminUser reason token => exact hf
  | keys e =>
    obtain ⟨env, op⟩ := e
    cases op with
    | createKey caller payload =>
      rintro ⟨hauth, howner⟩
      exact hf.2 hauth (keyOwner_self hf.1.nonAdministrator.keys howner).symm
    | issueCertificate caller keyId | downloadCertificate caller keyId
    | downloadCertificateHash caller keyId =>
      exact Foreign.Other.reaches h hf (p := .viewSshkey) (by decide) rfl
    | updateKey caller keyId payload =>
      exact Foreign.Other.reaches h hf (p := .changeSshkey) (by decide) rfl
    | deleteKey caller keyId => exact Foreign.Other.reaches h hf (p := .deleteSshkey) (by decide) rfl
    | process self adminUser reason token => exact hf
  | profile env caller form => exact fun ht => hf.2 ht.1 ht.2
  | connect env sessionKey caller serverId => exact id
  | login user now => exact hf
  | syncObjectPerms => exact not_not.mpr hf
  | syncReport now serverId payload => exact id

/-- Whatever has happened since the site was set up: through every run of events of
others, a user's account, keys, certificates, requests and permissions stay as they are. -/
theorem spared_by_others {start : Site} (hstart : Fresh start) (before after : List Event)
    (u : UserId) (h : Along step (Foreign u) (run step start before) after) :
    Spared u (run step start before).toDb (run step (run step start before) after).toDb := by
  have hsound : Sound (run step start before) := sound_run hstart before
  generalize run step start before = site at h hsound
  induction after generalizing site with
  | nil => exact Spared.refl u site.toDb
  | cons e after ih =>
    have hstep := (chain_acts (step_chain site e) hsound.owned).2 u (not_touched hsound h.1)
    exact hstep.trans (ih _ h.2 (sound_step e hsound))

/-! ## Two users -/

def household : Site where
  users := (Table.empty.insert alice).insert bob
  groupPermissions := {(roleUser, .addAccessrequest), (roleUser, .addSshkey)}

theorem household_fresh : Fresh household :=
  ⟨by simp [household], by simp [household], by simp [household], by simp [household],
    by simp [household]⟩

def aliceCaller : Caller := ⟨1, true, [.addAccessrequest, .addSshkey], []⟩

def stranger : Caller := ⟨2, true, [.addAccessrequest, .addSshkey], []⟩

def aliceAdds : List Event :=
  [.keys ⟨workingEnv, .createKey aliceCaller ⟨"laptop".toList, "ssh-ed25519 AAAA".toList, none⟩⟩]

theorem stranger_other : Foreign.Other 1 (run step household aliceAdds) stranger := by
  refine ⟨⟨⟨by decide, by decide⟩, fun _ => ⟨bob, by decide, rfl, rfl, ?_, ?_⟩⟩, fun _ => by decide⟩
  · intro p
    cases p <;> decide
  · intro p object
    have hperms : (run step household aliceAdds).userObjectPermissions =
        {⟨1, .viewSshkey, 1⟩, ⟨1, .changeSshkey, 1⟩, ⟨1, .deleteSshkey, 1⟩} := by decide
    have hgroups : (run step household aliceAdds).groupObjectPermissions = ∅ := rfl
    simp [Caller.hasObjectPerm, stranger, hasObjectPerm, granted, hperms, hgroups, bob, alice]

/-- Alice adds a key; Bob tries to delete it, and the command is run. -/
theorem alice_spared : Spared 1 (run step household aliceAdds).toDb
    (run step (run step household aliceAdds)
      [.keys ⟨workingEnv, .deleteKey stranger 1⟩, .syncObjectPerms]).toDb :=
  spared_by_others household_fresh aliceAdds _ 1
    ⟨stranger_other, ⟨alice, by decide, rfl, rfl⟩, trivial⟩

end Keywarden.Ownership
