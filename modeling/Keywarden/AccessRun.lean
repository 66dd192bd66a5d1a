import Keywarden.Access
import Keywarden.Erasure
import Keywarden.Transitions

/-!
# Grants over whole runs

What guardian holds is a cache of what the approved requests entitle to. Between
two sweeps it lags behind the clock only: it contains every pair entitled now and
nothing but pairs with an approved request. A sweep makes it exact.
-/
namespace Keywarden.AccessRun

open Rows Transitions Access Erasure

/-- The pairs an approved request that has not run out entitles. -/
def entitled (now : Instant) (db : Db) : Set (UserId × ServerId) :=
  { p | ∃ r ∈ db.accessRequests, (r.requester, r.server) = p ∧ r.status = .approved ∧
    unexpired now r = true }

/-- The pairs with an approved request, run out or not. -/
def approved (db : Db) : Set (UserId × ServerId) :=
  { p | ∃ r ∈ db.accessRequests, (r.requester, r.server) = p ∧ r.status = .approved }

/-- The pairs that hold `view_server`. -/
def held (db : Db) : Set (UserId × ServerId) := { p | HoldsView db p.1 p.2 }

structure Synced (now : Instant) (db : Db) : Prop where
  entitled_held : entitled now db ⊆ held db
  held_approved : held db ⊆ approved db

theorem unexpired_iff (now : Instant) (r : AccessRequest) :
    unexpired now r = true ↔ r.expiresAt = none ∨ ∃ e, r.expiresAt = some e ∧ now < e := by
  unfold unexpired
  cases r.expiresAt <;> simp

/-- A pair is entitled by an approved request without expiry, or with one to come. -/
theorem mem_entitled_iff (now : Instant) (db : Db) (u : UserId) (s : ServerId) :
    (u, s) ∈ entitled now db ↔ ∃ r ∈ db.accessRequests, r.requester = u ∧ r.server = s ∧
      r.status = .approved ∧ (r.expiresAt = none ∨ ∃ e, r.expiresAt = some e ∧ now < e) := by
  simp only [entitled, Set.mem_ofPred_eq, Prod.mk.injEq, and_assoc, unexpired_iff]

theorem unexpired_antitone {t now : Instant} (h : now ≤ t) {r : AccessRequest}
    (ht : unexpired t r = true) : unexpired now r = true := by
  unfold unexpired at ht ⊢
  cases he : r.expiresAt with
  | none => rfl
  | some e =>
    rw [he] at ht
    simp only [decide_eq_true_eq] at ht ⊢
    exact lt_of_le_of_lt h ht

theorem entitled_antitone {t now : Instant} (h : now ≤ t) (db : Db) :
    entitled t db ⊆ entitled now db := by
  rintro p ⟨r, hr, hp, hs, hu⟩
  exact ⟨r, hr, hp, hs, unexpired_antitone h hu⟩

theorem entitled_approved (now : Instant) (db : Db) : entitled now db ⊆ approved db := by
  rintro p ⟨r, hr, hp, hs, _⟩
  exact ⟨r, hr, hp, hs⟩

/-- Waiting keeps the cache in bounds. -/
theorem Synced.later {t now : Instant} {db : Db} (h : Synced now db) (ht : now ≤ t) :
    Synced t db :=
  ⟨(entitled_antitone ht db).trans h.entitled_held, h.held_approved⟩

theorem hasValidAccess_entitled (now : Instant) (u : UserId) (s : ServerId) (db : Db) :
    hasValidAccess now u s db = true ↔ (u, s) ∈ entitled now db := by
  rw [hasValidAccess_iff]
  simp only [entitled, Set.mem_ofPred_eq, Prod.mk.injEq, and_assoc]

theorem mem_held_sync (now : Instant) (r : AccessRequest) (db : Db) (p : UserId × ServerId) :
    p ∈ held (syncServerViewPerm now r db) ↔
      if (r.requester, r.server) = p then p ∈ entitled now db else p ∈ held db := by
  obtain ⟨u, s⟩ := p
  simp only [held, Set.mem_ofPred_eq, holdsView_sync, Prod.mk.injEq, hasValidAccess_entitled]

@[simp] theorem entitled_sync (now t : Instant) (r : AccessRequest) (db : Db) :
    entitled t (syncServerViewPerm now r db) = entitled t db := by
  simp [entitled]

@[simp] theorem approved_sync (now : Instant) (r : AccessRequest) (db : Db) :
    approved (syncServerViewPerm now r db) = approved db := by
  simp [approved]

@[simp] theorem entitled_assign (now t : Instant) (r : AccessRequest) (created : Bool) (db : Db) :
    entitled t (assignAccessRequestPerms now r created db) = entitled t db := by
  simp [entitled]

@[simp] theorem approved_assign (now : Instant) (r : AccessRequest) (created : Bool) (db : Db) :
    approved (assignAccessRequestPerms now r created db) = approved db := by
  simp [approved]

theorem held_assign (now : Instant) (r : AccessRequest) (created : Bool) (db : Db) :
    held (assignAccessRequestPerms now r created db) = held (syncServerViewPerm now r db) := by
  ext p
  exact holdsView_assignAccessRequestPerms now r created db p.1 p.2

theorem held_sync_sync (now : Instant) (r : AccessRequest) (db : Db) :
    held (syncServerViewPerm now r (syncServerViewPerm now r db)) =
      held (syncServerViewPerm now r db) := by
  ext p
  exact holdsView_sync_sync now r db p.1 p.2

/-- A write confined to the rows of one pair, followed by that pair's
synchronisation, keeps the cache in bounds. -/
theorem synced_sync {now : Instant} {db db' : Db} {r : AccessRequest} (h : Synced now db)
    (hrows : ∀ o : AccessRequest, (o.requester, o.server) ≠ (r.requester, r.server) →
      (o ∈ db'.accessRequests ↔ o ∈ db.accessRequests))
    (hheld : held db' = held db) : Synced now (syncServerViewPerm now r db') := by
  constructor
  · intro p hp
    rw [entitled_sync] at hp
    rw [mem_held_sync]
    by_cases he : (r.requester, r.server) = p
    · rw [if_pos he]; exact hp
    · rw [if_neg he, hheld]
      obtain ⟨o, ho, hop, hs, hu⟩ := hp
      have ho' := (hrows o (by rw [hop]; exact Ne.symm he)).mp ho
      exact h.entitled_held ⟨o, ho', hop, hs, hu⟩
  · intro p hp
    rw [mem_held_sync] at hp
    rw [approved_sync]
    by_cases he : (r.requester, r.server) = p
    · rw [if_pos he] at hp
      exact entitled_approved now db' hp
    · rw [if_neg he, hheld] at hp
      obtain ⟨o, ho, hop, hs⟩ := h.held_approved hp
      exact ⟨o, (hrows o (by rw [hop]; exact Ne.symm he)).mpr ho, hop, hs⟩

theorem Synced.of_eq {now : Instant} {db db' : Db} (h : Synced now db)
    (hrows : db'.accessRequests = db.accessRequests) (hheld : held db' = held db) :
    Synced now db' := by
  constructor
  · rw [hheld]
    simpa [entitled, hrows] using h.entitled_held
  · rw [hheld]
    simpa [approved, hrows] using h.held_approved

/-! ## One step lemma for each operation -/

theorem createRequest_synced {cfg : Settings} {caller : Caller} {now : Instant}
    {payload : AccessRequestCreateIn} {db db' : Db} {r : AccessRequest} (h : Synced now db)
    (hc : createRequest cfg caller now payload db = .ok (r, db')) : Synced now db' := by
  obtain ⟨-, rfl, rfl⟩ := createRequest_ok hc
  let mk := newRequest cfg caller now payload payload.serverId
  let db₁ : Db := { db with accessRequests := db.accessRequests.create mk }
  have hs : Synced now (syncServerViewPerm now (mk db.accessRequests.fresh) db₁) := by
    refine synced_sync h ?_ rfl
    intro o ho
    rw [Table.mem_create _ _ (fun _ => rfl)]
    constructor
    · rintro (ho' | rfl)
      · exact ho'
      · exact absurd rfl ho
    · exact .inl
  refine ⟨?_, ?_⟩
  · rw [entitled_assign, held_assign]
    simpa using hs.entitled_held
  · rw [approved_assign, held_assign]
    simpa using hs.held_approved

theorem updateRequest_synced {cfg : Settings} {caller : Caller} {now : Instant} {id : Nat}
    {payload : AccessRequestUpdateIn} {db db' : Db} {r : AccessRequest} (h : Synced now db)
    (hc : updateRequest cfg caller now id payload db = .ok (r, db')) : Synced now db' := by
  obtain ⟨row, hrow, -, hr, rfl⟩ := updateRequest_ok hc
  obtain ⟨hid, hreq, hserv⟩ := applyUpdate_frame hr
  have hs : Synced now (saveRequest now r db) := by
    refine synced_sync h ?_ rfl
    intro o ho
    rw [Table.mem_save]
    constructor
    · rintro (⟨rfl, _⟩ | ⟨ho', _⟩)
      · exact absurd rfl ho
      · exact ho'
    · intro ho'
      refine .inr ⟨ho', fun hk => ho ?_⟩
      have hor : o = row := Table.eq_of_key _ ho' hrow (hk.trans hid)
      rw [hor, hreq, hserv]
  exact synced_sync hs (fun o _ => Iff.rfl) rfl

theorem process_synced (self : ErasureRequest) (adminUser : UserId)
    (reason token : List Char) {now : Instant} {db : Db} (h : Synced now db) :
    Synced now (process self adminUser reason token now db).2 := by
  unfold process
  split
  · exact h
  · have hs : Synced now (anonymizeUser adminUser token now self.user db) := by
      constructor
      · rintro ⟨u, s⟩ ⟨r, hr, hp, hst, hu⟩
        obtain ⟨_, _, hna⟩ | ⟨hne, hr'⟩ := mem_erasedRequests hr
        · exact absurd hst hna
        · simp only [Prod.mk.injEq] at hp
          refine (holdsView_anonymizeUser _ _ _ _ _ _ _).mpr ⟨hp.1 ▸ hne, ?_⟩
          exact h.entitled_held ⟨r, hr', by rw [hp.1, hp.2], hst, hu⟩
      · rintro ⟨u, s⟩ hp
        obtain ⟨hne, hv⟩ := (holdsView_anonymizeUser _ _ _ _ _ _ _).mp hp
        obtain ⟨r, hr, hrp, hst⟩ := h.held_approved hv
        simp only [Prod.mk.injEq] at hrp
        exact ⟨r, erasedRequests_of_ne hr (hrp.1 ▸ hne), by rw [hrp.1, hrp.2], hst⟩
    exact hs.of_eq rfl rfl

/-! ## The sweep -/

/-- Marking a row that grants nothing takes nothing from anybody. -/
theorem entitled_expireOne {now : Instant} {db : Db} {r : AccessRequest}
    (h : ∀ o ∈ db.accessRequests, o.id = r.id → ¬ (o.status = .approved ∧ unexpired now o = true)) :
    entitled now (expireOne now db r) = entitled now db := by
  ext p
  simp only [expireOne, entitled_sync, entitled_assign]
  constructor
  · rintro ⟨q, hq, hp, hs, hu⟩
    obtain ⟨o, ho, rfl⟩ := (Table.mem_update _ _ _ _).mp hq
    by_cases hid : o.id = r.id
    · simp [hid, markExpired] at hs
    · simp only [hid, decide_false, Bool.false_eq_true, if_false] at hp hs hu
      exact ⟨o, ho, hp, hs, hu⟩
  · rintro ⟨o, ho, hp, hs, hu⟩
    have hid : o.id ≠ r.id := fun hid => h o ho hid ⟨hs, hu⟩
    refine ⟨o, (Table.mem_update _ _ _ _).mpr ⟨o, ho, by simp [hid]⟩, hp, hs, hu⟩

theorem mem_held_expireOne (now : Instant) (db : Db) (r : AccessRequest) (p : UserId × ServerId) :
    p ∈ held (expireOne now db r) ↔
      if (r.requester, r.server) = p then p ∈ entitled now (expireOne now db r)
      else p ∈ held db := by
  simp only [expireOne, assignAccessRequestPerms, if_neg (Bool.false_ne_true), held_sync_sync,
    mem_held_sync, entitled_sync]
  rfl

theorem mem_expireOne {now : Instant} {db : Db} {r o : AccessRequest}
    (h : o ∈ (expireOne now db r).accessRequests) :
    o.status = .expired ∨ o ∈ db.accessRequests := by
  simp only [expireOne, syncServerViewPerm_accessRequests,
    assignAccessRequestPerms_accessRequests] at h
  obtain ⟨q, hq, rfl⟩ := (Table.mem_update _ _ _ _).mp h
  by_cases hid : q.id = r.id
  · left; simp [hid, markExpired]
  · right; simpa [hid] using hq

/-- The loop of the sweep, from any state in which the rows still to come grant
nothing: entitlement stands still, and the pairs of those rows end up exact. -/
theorem expire_loop (now : Instant) (l : List AccessRequest) (db : Db)
    (h : ∀ r ∈ l, ∀ o ∈ db.accessRequests, o.id = r.id →
      ¬ (o.status = .approved ∧ unexpired now o = true)) :
    entitled now (l.foldl (expireOne now) db) = entitled now db ∧
    ∀ p, p ∈ held (l.foldl (expireOne now) db) ↔
      if ∃ r ∈ l, (r.requester, r.server) = p then p ∈ entitled now db else p ∈ held db := by
  induction l generalizing db with
  | nil => simp
  | cons r l ih =>
    have hent := entitled_expireOne (h r List.mem_cons_self)
    have hnext : ∀ q ∈ l, ∀ o ∈ (expireOne now db r).accessRequests, o.id = q.id →
        ¬ (o.status = .approved ∧ unexpired now o = true) := by
      intro q hq o ho hid hgr
      obtain hx | ho' := mem_expireOne ho
      · rw [hx] at hgr; exact absurd hgr.1 (by decide)
      · exact h q (List.mem_cons_of_mem _ hq) o ho' hid hgr
    obtain ⟨ihe, ihh⟩ := ih (expireOne now db r) hnext
    refine ⟨by rw [List.foldl_cons, ihe, hent], ?_⟩
    intro p
    rw [List.foldl_cons, ihh p, hent, mem_held_expireOne, hent]
    by_cases hr : (r.requester, r.server) = p
    · have hex : ∃ q ∈ r :: l, (q.requester, q.server) = p := ⟨r, List.mem_cons_self, hr⟩
      simp only [hr, if_true, hex, ite_self]
    · simp only [List.exists_mem_cons_iff, hr, false_or, if_false]

theorem mem_expiring (now : Instant) (db : Db) (r : AccessRequest) :
    r ∈ expiring now db ↔ r ∈ db.accessRequests ∧ isExpiring now r = true := by
  rw [expiring, List.mem_insertionSort, Table.mem_filter]

theorem isExpiring_iff (now : Instant) (r : AccessRequest) :
    isExpiring now r = true ↔ r.status = .approved ∧ unexpired now r = false := by
  unfold isExpiring unexpired
  cases r.expiresAt <;> simp

/-- What the sweep selects grants nothing. -/
theorem expiring_lapsed {now : Instant} {db : Db} {r o : AccessRequest} (hr : r ∈ expiring now db)
    (ho : o ∈ db.accessRequests) (hid : o.id = r.id) :
    ¬ (o.status = .approved ∧ unexpired now o = true) := by
  intro hgr
  obtain ⟨hmem, hx⟩ := (mem_expiring now db r).mp hr
  have hor : o = r := Table.eq_of_key _ ho hmem hid
  rw [isExpiring_iff, ← hor, hgr.2] at hx
  exact absurd hx.2 (by decide)

@[simp] theorem entitled_expireAccessRequests (now : Instant) (db : Db) :
    entitled now (expireAccessRequests now db).2 = entitled now db :=
  (expire_loop now (expiring now db) db fun _ hr _ => expiring_lapsed hr).1

/-- After a sweep nobody holds what no unexpired request backs, provided that an
approved request, expired or not, backed every grant before it. -/
theorem held_expire_subset {now : Instant} {db : Db} (h : held db ⊆ approved db) :
    held (expireAccessRequests now db).2 ⊆ entitled now db := by
  intro p hp
  have hh := (expire_loop now (expiring now db) db fun _ hr _ => expiring_lapsed hr).2
  rw [expireAccessRequests, hh p] at hp
  split at hp
  · exact hp
  · next hnone =>
    obtain ⟨r, hr, hrp, hs⟩ := h hp
    by_cases hu : unexpired now r = true
    · exact ⟨r, hr, hrp, hs, hu⟩
    · exfalso
      refine hnone ⟨r, (mem_expiring now db r).mpr ⟨hr, ?_⟩, hrp⟩
      exact (isExpiring_iff now r).mpr ⟨hs, by simpa using hu⟩

/-- A sweep makes the cache equal to entitlement. -/
theorem held_expireAccessRequests {now : Instant} {db : Db} (h : Synced now db) :
    held (expireAccessRequests now db).2 = entitled now db := by
  apply Set.Subset.antisymm (held_expire_subset h.held_approved)
  intro p hp
  rw [expireAccessRequests, (expire_loop now (expiring now db) db fun _ hr _ => expiring_lapsed hr).2 p]
  split
  · exact hp
  · exact h.entitled_held hp

theorem expireAccessRequests_synced {now : Instant} {db : Db} (h : Synced now db) :
    Synced now (expireAccessRequests now db).2 := by
  have hh := held_expireAccessRequests h
  refine ⟨by rw [entitled_expireAccessRequests, hh], ?_⟩
  rw [hh, ← entitled_expireAccessRequests]
  exact entitled_approved now _

/-! ## Runs -/

inductive Op where
  | createRequest : Caller → AccessRequestCreateIn → Op
  | updateRequest : Caller → Nat → AccessRequestUpdateIn → Op
  | expireAccessRequests : Op
  | process : ErasureRequest → UserId → List Char → List Char → Op

/-- A failed request leaves the database as it was. -/
def apply (cfg : Settings) (now : Instant) (db : Db) : Op → Db
  | .createRequest caller payload =>
    match createRequest cfg caller now payload db with
    | .ok (_, db') => db'
    | .error _ => db
  | .updateRequest caller id payload =>
    match updateRequest cfg caller now id payload db with
    | .ok (_, db') => db'
    | .error _ => db
  | .expireAccessRequests => (expireAccessRequests now db).2
  | .process self adminUser reason token => (process self adminUser reason token now db).2

structure World where
  db : Db
  now : Instant

/-- An operation, and the time that has passed since the one before. -/
structure Event where
  elapsed : Nat
  op : Op

theorem later_le (t : Instant) (elapsed : Nat) : t ≤ t + elapsed :=
  Int.le_add_of_nonneg_right (Int.natCast_nonneg elapsed)

def step (cfg : Settings) (w : World) (e : Event) : World :=
  ⟨apply cfg (w.now + e.elapsed) w.db e.op, w.now + e.elapsed⟩

theorem apply_synced (cfg : Settings) {now : Instant} {db : Db} (h : Synced now db) (op : Op) :
    Synced now (apply cfg now db op) := by
  cases op with
  | createRequest caller payload =>
    simp only [apply]
    split
    · next hc => exact createRequest_synced h hc
    · exact h
  | updateRequest caller id payload =>
    simp only [apply]
    split
    · next hc => exact updateRequest_synced h hc
    · exact h
  | expireAccessRequests => exact expireAccessRequests_synced h
  | process self adminUser reason token => exact process_synced self adminUser reason token h

theorem step_synced (cfg : Settings) (w : World) (e : Event) (h : Synced w.now w.db) :
    Synced (step cfg w e).now (step cfg w e).db :=
  apply_synced cfg (h.later (later_le _ _)) e.op

/-- Every run from an empty access table keeps the cache in bounds. -/
theorem run_synced (cfg : Settings) {db : Db} (hreq : db.accessRequests = .empty)
    (hview : ∀ u s, ¬ HoldsView db u s) (t : Instant) (es : List Event) :
    Synced (run (step cfg) ⟨db, t⟩ es).now (run (step cfg) ⟨db, t⟩ es).db := by
  refine run_preserves (step_synced cfg) ?_ es
  refine ⟨?_, fun p hp => absurd hp (hview p.1 p.2)⟩
  rintro p ⟨r, hr, _⟩
  rw [hreq] at hr
  exact absurd hr (Table.not_mem_empty r)

/-- Right after any sweep of any run, a user holds `view_server` on a server if
and only if an approved request of the pair has no expiry or one in the future. -/
theorem holdsView_after_expire (cfg : Settings) (db : Db) (t : Instant)
    (hreq : db.accessRequests = .empty) (hview : ∀ u s, ¬ HoldsView db u s)
    (es : List Event) (elapsed : Nat) (u : UserId) (s : ServerId) :
    let w := run (step cfg) ⟨db, t⟩ (es ++ [⟨elapsed, .expireAccessRequests⟩])
    HoldsView w.db u s ↔ ∃ r ∈ w.db.accessRequests, r.requester = u ∧ r.server = s ∧
      r.status = .approved ∧ (r.expiresAt = none ∨ ∃ e, r.expiresAt = some e ∧ w.now < e) := by
  intro w
  let w₀ := run (step cfg) ⟨db, t⟩ es
  have hw : w = ⟨(expireAccessRequests (w₀.now + elapsed) w₀.db).2, w₀.now + elapsed⟩ :=
    run_append (step cfg) ⟨db, t⟩ es _
  have hs : Synced (w₀.now + elapsed) w₀.db :=
    (run_synced cfg hreq hview t es).later (later_le _ _)
  have hiff : HoldsView w.db u s ↔ (u, s) ∈ entitled w.now w.db := by
    rw [hw]
    change (u, s) ∈ held (expireAccessRequests (w₀.now + elapsed) w₀.db).2 ↔ _
    rw [held_expireAccessRequests hs, entitled_expireAccessRequests]
  rw [hiff, mem_entitled_iff]

/-- One server, nobody with access to it. -/
def oneServer : Db where
  servers := ⟨[⟨1, "web".toList, none, none, none, none, none, none⟩], by decide⟩

def utc : Settings := ⟨id, "{{username}}_{{user_id}}".toList, 30, 15⟩

/-- User 7 asks for server 1 and user 2, an administrator, approves until 100. -/
def approval : List Event :=
  [⟨1, .createRequest ⟨7, true, [.addAccessrequest], []⟩ ⟨1, none, true, false, false, none⟩⟩,
   ⟨1, .updateRequest ⟨2, true, [.changeAccessrequest], [(.changeAccessrequest, 1)]⟩ 1
     ⟨some "approved", some (.aware 100)⟩⟩]

theorem holdsView_after_approval :
    HoldsView (run (step utc) ⟨oneServer, 0⟩ (approval ++ [⟨50, .expireAccessRequests⟩])).db 7 1 :=
  (holdsView_after_expire utc oneServer 0 rfl (by simp [HoldsView, oneServer]) approval 50 7 1).mpr
    ⟨⟨1, 7, 1, .approved, [], true, false, false, 1, some 2, some 100, some 2⟩,
      by decide, rfl, rfl, rfl, .inr ⟨100, rfl, by decide⟩⟩

/-- One approved request and the grant it backs. -/
def oneGrant : Db where
  accessRequests :=
    ⟨[⟨1, 7, 1, .approved, [], true, false, false, 0, some 0, none, some 2⟩], by decide⟩
  userObjectPermissions := {⟨7, .viewServer, 1⟩}

theorem oneGrant_held {p : UserId × ServerId} (h : p ∈ held oneGrant) : p = (7, 1) := by
  obtain ⟨u, s⟩ := p
  have hp : (⟨u, .viewServer, s⟩ : UserObjectPermission) ∈ oneGrant.userObjectPermissions := h
  simp only [oneGrant, Finset.mem_singleton, UserObjectPermission.mk.injEq, true_and] at hp
  rw [hp.1, hp.2]

theorem oneGrant_approved : held oneGrant ⊆ approved oneGrant := by
  intro p hp
  rw [oneGrant_held hp]
  exact ⟨⟨1, 7, 1, .approved, [], true, false, false, 0, some 0, none, some 2⟩, by decide, rfl, rfl⟩

end Keywarden.AccessRun
