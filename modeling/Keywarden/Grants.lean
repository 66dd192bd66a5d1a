import Keywarden.History

/-!
# How far the grants lag behind

The permission to view a server makes an account on it. In any run of the site, whatever
is requested, decided, erased or repaired, each pair that an approved request entitles at
the moment holds the permission; and a pair that holds it is one that an approved request
entitled when expired requests were last swept.
-/
namespace Keywarden.Grants

open Rows Transitions Access Erasure Authorization ErasureRun Writes History
open AccessRun hiding Event step

/-- What a call at `now` does to the pairs: each of them is settled or left as it was. -/
def Settles (now : Instant) (db db' : Db) : Prop :=
  ∀ p : UserId × ServerId, (p ∈ held db' ↔ p ∈ entitled now db') ∨
    ((p ∈ held db' ↔ p ∈ held db) ∧ ∀ r : AccessRequest, (r.requester, r.server) = p →
      (r ∈ db'.accessRequests ↔ r ∈ db.accessRequests))

/-- The grants are those of some time from the last sweep to now. -/
structure Lags (swept now : Instant) (db : Db) : Prop where
  entitled_held : entitled now db ⊆ held db
  held_entitled : held db ⊆ entitled swept db

section Calls

variable {swept now t : Instant} {db db' db'' : Db}

theorem Lags.synced (h : Lags swept now db) : Synced now db :=
  ⟨h.entitled_held, h.held_entitled.trans (entitled_approved swept db)⟩

theorem Lags.later (h : Lags swept now db) (ht : now ≤ t) : Lags swept t db :=
  ⟨(entitled_antitone ht db).trans h.entitled_held, h.held_entitled⟩

/-- The rows of a pair are all that its entitlement depends on. -/
theorem mem_entitled_congr {p : UserId × ServerId} (t : Instant)
    (h : ∀ r : AccessRequest, (r.requester, r.server) = p →
      (r ∈ db'.accessRequests ↔ r ∈ db.accessRequests)) :
    p ∈ entitled t db' ↔ p ∈ entitled t db := by
  constructor
  · rintro ⟨r, hr, hp, hrest⟩
    exact ⟨r, (h r hp).mp hr, hp, hrest⟩
  · rintro ⟨r, hr, hp, hrest⟩
    exact ⟨r, (h r hp).mpr hr, hp, hrest⟩

theorem Settles.lags (h : Settles now db db') (hl : Lags swept now db) (hle : swept ≤ now) :
    Lags swept now db' := by
  constructor
  · intro p hp
    obtain hsettled | ⟨hheld, hrows⟩ := h p
    · exact hsettled.mpr hp
    · exact hheld.mpr (hl.entitled_held ((mem_entitled_congr now hrows).mp hp))
  · intro p hp
    obtain hsettled | ⟨hheld, hrows⟩ := h p
    · exact entitled_antitone hle db' (hsettled.mp hp)
    · exact (mem_entitled_congr swept hrows).mpr (hl.held_entitled (hheld.mp hp))

theorem settles_of_eq (hrows : db'.accessRequests = db.accessRequests) (hheld : held db' = held db) :
    Settles now db db' :=
  fun _ => .inr ⟨by rw [hheld], fun _ _ => by rw [hrows]⟩

theorem Settles.congr (h : Settles now db db') (hrows : db''.accessRequests = db'.accessRequests)
    (hheld : held db'' = held db') : Settles now db db'' := by
  have hentitled : entitled now db'' = entitled now db' := by
    unfold entitled
    rw [hrows]
  unfold Settles
  rw [hheld, hentitled, hrows]
  exact h

/-- Rows of one pair are written, and the pair is synchronised. -/
theorem settles_sync {r : AccessRequest}
    (hrows : ∀ o : AccessRequest, (o.requester, o.server) ≠ (r.requester, r.server) →
      (o ∈ db'.accessRequests ↔ o ∈ db.accessRequests)) (hheld : held db' = held db) :
    Settles now db (syncServerViewPerm now r db') := by
  intro p
  rw [mem_held_sync, entitled_sync]
  by_cases he : (r.requester, r.server) = p
  · rw [if_pos he]
    exact .inl Iff.rfl
  · rw [if_neg he, hheld, syncServerViewPerm_accessRequests]
    exact .inr ⟨Iff.rfl, fun o ho => hrows o fun h => he (h.symm.trans ho)⟩

theorem createRequest_settles {cfg : Settings} {caller : Caller} {payload : AccessRequestCreateIn}
    {r : AccessRequest} (hc : createRequest cfg caller now payload db = .ok (r, db')) :
    Settles now db db' := by
  obtain ⟨-, rfl, rfl⟩ := createRequest_ok hc
  let mk := newRequest cfg caller now payload payload.serverId
  have hs : Settles now db (syncServerViewPerm now (mk db.accessRequests.fresh)
      { db with accessRequests := db.accessRequests.create mk }) := by
    refine settles_sync (fun o ho => ?_) rfl
    rw [Table.mem_create _ _ (fun _ => rfl)]
    exact or_iff_left fun heq => ho (by rw [heq])
  refine hs.congr ?_ (held_assign _ _ _ _)
  rw [assignAccessRequestPerms_accessRequests, syncServerViewPerm_accessRequests]

theorem updateRequest_settles {cfg : Settings} {caller : Caller} {id : Nat}
    {payload : AccessRequestUpdateIn} {r : AccessRequest}
    (hc : updateRequest cfg caller now id payload db = .ok (r, db')) : Settles now db db' := by
  obtain ⟨row, hrow, -, hr, rfl⟩ := updateRequest_ok hc
  obtain ⟨hid, hreq, hserv⟩ := applyUpdate_frame hr
  have hs : Settles now db (saveRequest now r db) := by
    refine settles_sync (fun o ho => ?_) rfl
    rw [Table.mem_save]
    constructor
    · rintro (⟨rfl, _⟩ | ⟨ho', _⟩)
      · exact absurd rfl ho
      · exact ho'
    · intro ho'
      refine .inr ⟨ho', fun hk => ho ?_⟩
      rw [Table.eq_of_key _ ho' hrow (hk.trans hid), hreq, hserv]
  exact hs.congr (syncServerViewPerm_accessRequests _ _ _) (held_sync_sync _ _ _)

theorem process_settles (self : ErasureRequest) (adminUser : UserId) (reason token : List Char) :
    Settles now db (process self adminUser reason token now db).2 := by
  unfold process
  split
  · exact settles_of_eq rfl rfl
  · have hs : Settles now db (anonymizeUser adminUser token now self.user db) := by
      rintro ⟨u, s⟩
      by_cases hu : u = self.user
      · refine .inl (iff_of_false (fun hp => ?_) ?_)
        · exact ((holdsView_anonymizeUser _ _ _ _ _ _ _).mp hp).1 hu
        · rintro ⟨r, hr, hp, happroved, _⟩
          obtain ⟨_, _, hna⟩ | ⟨hne, _⟩ := mem_erasedRequests hr
          · exact hna happroved
          · exact hne ((Prod.mk.inj hp).1.trans hu)
      · refine .inr ⟨(holdsView_anonymizeUser _ _ _ _ _ _ _).trans (and_iff_right hu), fun r hr => ?_⟩
        have hne : r.requester ≠ self.user := fun h => hu ((Prod.mk.inj hr).1.symm.trans h)
        constructor
        · exact fun h => (mem_erasedRequests h).elim (fun h => absurd h.1 hne) And.right
        · exact fun h => erasedRequests_of_ne h hne
    exact hs.congr rfl rfl

/-- After a sweep the grants do not lag behind at all. -/
theorem expire_lags (hl : Lags swept now db) : Lags now now (expireAccessRequests now db).2 := by
  have hheld := held_expireAccessRequests hl.synced
  constructor
  · rw [entitled_expireAccessRequests, hheld]
  · rw [entitled_expireAccessRequests, hheld]

/-! ## What is no request for access -/

theorem aside_held {A : UserId → Prop} (h : Aside A now db db') : held db' = held db := by
  cases h with
  | insertKey _ _ _ _ _ =>
    ext ⟨u, s⟩
    simp [held, HoldsView, KeyApi.assignSshKeyPerms]
  | @assignOwner v p o hp _ _ =>
    ext ⟨u, s⟩
    have hview : (⟨u, .viewServer, s⟩ : UserObjectPermission) ≠ ⟨v, p, o⟩ := by
      intro heq
      cases heq
      exact hp.1 rfl
    exact (mem_assignPerm _ _ _).trans (or_iff_right hview)
  | _ => rfl

theorem asideChain_settles {A : UserId → Prop} (h : AsideChain A now db db') :
    Settles t db db' := by
  refine settles_of_eq ?_ ?_
  · induction h with
    | refl => rfl
    | tail _ hw ih => rw [aside_requests hw, ih]
  · induction h with
    | refl => rfl
    | tail _ hw ih => rw [aside_held hw, ih]

end Calls

/-! ## Runs -/

/-- A site, the time, and the time of the last sweep. -/
structure Watch where
  site : Site
  now : Instant
  swept : Instant

/-- When the event is. -/
def Watch.time (w : Watch) : Event → Instant
  | .syncObjectPerms => w.now
  | e => clock e

def watch (w : Watch) (e : Event) : Watch where
  site := step w.site e
  now := w.time e
  swept :=
    match e with
    | .access _ now .expireAccessRequests => now
    | _ => w.swept

/-- The clock is not put back. -/
def Timely (w : Watch) (e : Event) : Prop := w.now ≤ w.time e

/-- The grants are in their bounds. -/
structure Current (w : Watch) : Prop where
  swept_le : w.swept ≤ w.now
  lags : Lags w.swept w.now w.site.toDb

theorem current_of_settles {w : Watch} {now : Instant} {db : Db} {site : Site} (h : Current w)
    (hnow : w.now ≤ now) (hdb : site.toDb = db) (hs : Settles now w.site.toDb db) :
    Current ⟨site, now, w.swept⟩ :=
  ⟨h.swept_le.trans hnow, hdb ▸ hs.lags (h.lags.later hnow) (h.swept_le.trans hnow)⟩

theorem watch_current {w : Watch} {e : Event} (h : Current w) (ht : Timely w e) :
    Current (watch w e) := by
  cases e with
  | access cfg now op =>
    cases op with
    | createRequest caller payload =>
      refine current_of_settles h ht rfl ?_
      simp only [step, over_toDb, AccessRun.apply]
      split
      · next hc => exact createRequest_settles hc
      · exact settles_of_eq rfl rfl
    | updateRequest caller id payload =>
      refine current_of_settles h ht rfl ?_
      simp only [step, over_toDb, AccessRun.apply]
      split
      · next hc => exact updateRequest_settles hc
      · exact settles_of_eq rfl rfl
    | expireAccessRequests => exact ⟨le_rfl, expire_lags (h.lags.later ht)⟩
    | process self adminUser reason token =>
      exact current_of_settles h ht rfl (process_settles self adminUser reason token)
  | keys e =>
    obtain ⟨env, op⟩ := e
    cases op with
    | process self adminUser reason token =>
      exact current_of_settles h ht rfl (process_settles self adminUser reason token)
    | _ => exact current_of_settles h ht rfl (asideChain_settles (step_aside trivial))
  | _ => exact current_of_settles h ht rfl (asideChain_settles (step_aside trivial))

/-- No requests, and nobody who may view a server. -/
structure Blank (site : Site) : Prop where
  requests : ∀ r, r ∉ site.accessRequests
  grants : ∀ u s, ¬ HoldsView site.toDb u s

theorem Blank.current {site : Site} (h : Blank site) (t : Instant) : Current ⟨site, t, t⟩ := by
  refine ⟨le_rfl, ⟨?_, fun p hp => absurd hp (h.grants p.1 p.2)⟩⟩
  rintro p ⟨r, hr, _⟩
  exact absurd hr (h.requests r)

/-- In every state of a site, whoever has an approved request for a server that has not run
out may view it, and so may nobody whose requests were all undecided, declined or run out
when expired requests were last swept. -/
theorem grants_current {site : Site} (hblank : Blank site) (t : Instant) {events : List Event}
    (htimely : Along watch Timely ⟨site, t, t⟩ events) (u : UserId) (s : ServerId) :
    let w := run watch ⟨site, t, t⟩ events
    ((∃ r ∈ w.site.accessRequests, r.requester = u ∧ r.server = s ∧ r.status = .approved ∧
      (r.expiresAt = none ∨ ∃ e, r.expiresAt = some e ∧ w.now < e)) → HoldsView w.site.toDb u s) ∧
    (HoldsView w.site.toDb u s → ∃ r ∈ w.site.accessRequests, r.requester = u ∧ r.server = s ∧
      r.status = .approved ∧ (r.expiresAt = none ∨ ∃ e, r.expiresAt = some e ∧ w.swept < e)) := by
  intro w
  have hw : Current w := run_invariant (fun _ _ h ht => watch_current h ht) (hblank.current t) htimely
  rw [← mem_entitled_iff, ← mem_entitled_iff]
  exact ⟨fun h => hw.lags.entitled_held h, fun h => hw.lags.held_entitled h⟩

/-! ## A request that is approved -/

def oneServer : Site := { Ownership.household with servers := AccessRun.oneServer.servers }

theorem oneServer_blank : Blank oneServer := ⟨by simp [oneServer, Ownership.household],
  by simp [oneServer, Ownership.household, HoldsView]⟩

def approver : Caller := ⟨9, true, [.changeAccessrequest], [(.changeAccessrequest, 1)]⟩

/-- Alice asks for the server and is let in until 5000. -/
def approval : List Event := [
  .access AccessRun.utc 1000 (.createRequest Ownership.aliceCaller ⟨1, none, false, false, false, none⟩),
  .access AccessRun.utc 1001 (.updateRequest approver 1 ⟨some "approved", some (.aware 5000)⟩)]

theorem alice_may_view :
    HoldsView (run watch ⟨oneServer, 0, 0⟩ (approval ++ [.syncObjectPerms])).site.toDb 1 1 := by
  have htimely : Along watch Timely ⟨oneServer, 0, 0⟩ (approval ++ [.syncObjectPerms]) := by
    refine ⟨?_, ?_, le_rfl, trivial⟩
    · exact Int.le_of_lt (by decide)
    · exact Int.le_of_lt (by decide)
  exact (grants_current oneServer_blank 0 htimely 1 1).1
    ((mem_entitled_iff _ _ _ _).mp ((hasValidAccess_entitled _ _ _ _).mp (by decide)))

end Keywarden.Grants
