import Keywarden.History
import Keywarden.Paging

/-!
# The lists of keys and requests

The handlers that list keys and access requests, and those that give one of them. A
user without the global permission is shown exactly what is theirs. A reader who goes
through the pages misses nothing that was there at the start, whatever is added or
changed in the meantime.
-/
namespace Keywarden.Listings

open Rows Transitions Keys Authorization ErasureRun Writes Ownership History Paging

/-- `limit` and `offset` as the query schemas accept them. -/
structure Window where
  limit : Nat
  offset : Nat
  one_le : 1 ≤ limit
  le_max : limit ≤ 200

structure KeysQuery extends Window where
  userId : Option Int

structure AccessQuery extends Window where
  status : Option String
  serverId : Option Int
  requesterId : Option Int

/-- A filter by an id; zero is the same as none. -/
def matching (filter : Option Int) (id : Nat) : Bool :=
  match filter with
  | none => true
  | some i => i = 0 || i = id

/-! ## The handlers -/

/-- All rows, or those of `get_objects_for_user(…, accept_global_perms=False)`. -/
def visible {ρ : Type} [Keyed ρ Nat] (caller : Caller) (p : Perm) (t : Table ρ) : List ρ :=
  if caller.hasPerm p then t.toList else t.filter fun r => caller.hasObjectPerm p (Keyed.key r)

def listKeys (caller : Caller) (filters : KeysQuery) (db : Db) : Except HttpError (List SSHKey) :=
  if !caller.isAuthenticated then .error forbidden
  else
    let qs := visible caller .viewSshkey db.sshKeys
    let qs := qs.filter fun key => !caller.hasPerm .viewSshkey || matching filters.userId key.user
    .ok (page filters.limit filters.offset (newestFirst SSHKey.createdAt qs))

def getKey (caller : Caller) (keyId : Nat) (db : Db) : Except HttpError SSHKey :=
  KeyApi.findKey caller .viewSshkey keyId db

def listRequests (caller : Caller) (filters : AccessQuery) (db : Db) :
    Except HttpError (List AccessRequest) :=
  if !caller.isAuthenticated then .error forbidden
  else
    let qs := visible caller .viewAccessrequest db.accessRequests
    let qs := qs.filter fun r =>
      !caller.hasPerm .viewAccessrequest || matching filters.requesterId r.requester
    let qs := qs.filter fun r => filters.status.all fun s => s = "" || s = r.status.value
    let qs := qs.filter fun r => matching filters.serverId r.server
    .ok (page filters.limit filters.offset (newestFirst AccessRequest.requestedAt qs))

def getRequest (caller : Caller) (requestId : Nat) (db : Db) : Except HttpError AccessRequest :=
  if !caller.isAuthenticated then .error forbidden
  else match db.accessRequests.find requestId with
    | none => .error notFound
    | some r => if caller.hasObjectPerm .viewAccessrequest r.id then .ok r else .error forbidden

/-! ## What a user is shown -/

section Shown

variable {site : Site} {user : User} {caller : Caller}

theorem mem_visible {ρ : Type} [Keyed ρ Nat] {p : Perm} {t : Table ρ} {r : ρ} :
    r ∈ visible caller p t ↔
      r ∈ t ∧ (caller.hasPerm p = true ∨ caller.hasObjectPerm p (Keyed.key r) = true) := by
  unfold visible
  split
  · next hall => simp [hall]
  · next hall => simp [Table.mem_filter, hall]

theorem mem_listKeys {db : Db} (hauth : caller.isAuthenticated = true) {k : SSHKey} :
    (∃ filters keys, filters.userId = none ∧ listKeys caller filters db = .ok keys ∧ k ∈ keys) ↔
      k ∈ visible caller .viewSshkey db.sshKeys := by
  have hpage : ∀ filters : KeysQuery, filters.userId = none → listKeys caller filters db =
      .ok (page filters.limit filters.offset
        (newestFirst SSHKey.createdAt (visible caller .viewSshkey db.sshKeys))) := by
    intro filters hnone
    simp [listKeys, hauth, hnone, matching]
  constructor
  · rintro ⟨filters, keys, hnone, hok, hk⟩
    rw [hpage filters hnone] at hok
    cases hok
    exact mem_newestFirst.mp ((exists_mem_page filters.one_le).mp ⟨_, hk⟩)
  · intro hk
    have hmem : k ∈ newestFirst SSHKey.createdAt (visible caller .viewSshkey db.sshKeys) :=
      mem_newestFirst.mpr hk
    obtain ⟨offset, hoffset⟩ := (exists_mem_page Nat.one_pos).mpr hmem
    exact ⟨⟨⟨1, offset, le_rfl, by decide⟩, none⟩, _, rfl, hpage _ rfl, hoffset⟩

theorem owns_key_iff {db : Db} {k : SSHKey} (hk : k ∈ db.sshKeys) (u : UserId) :
    Owns db u .sshkey k.id ↔ k.user = u := by
  constructor
  · exact fun h => (owns_of_mem hk).user h
  · rintro rfl
    exact owns_of_mem hk

theorem owns_request_iff {db : Db} {r : AccessRequest} (hr : r ∈ db.accessRequests) (u : UserId) :
    Owns db u .accessrequest r.id ↔ r.requester = u := by
  have howner : Owns db r.requester .accessrequest r.id := ⟨r, hr, rfl, rfl⟩
  constructor
  · exact fun h => howner.user h
  · rintro rfl
    exact howner

theorem findKey_iff (hs : Sound site) (hm : user ∈ site.users) (hrep : Represents site user caller)
    (hauth : caller.isAuthenticated = true) (hsuper : user.isSuperuser = false) {p : Perm}
    (hp : p ∈ [Perm.viewSshkey, .changeSshkey, .deleteSshkey]) (keyId : Nat) (k : SSHKey) :
    KeyApi.findKey caller p keyId site.toDb = .ok k ↔
      k ∈ site.sshKeys ∧ k.id = keyId ∧ k.user = user.id := by
  have hperm : OwnerPerm p ∧ permModel p = .sshkey := by
    simp only [List.mem_cons, List.not_mem_nil, or_false] at hp
    obtain rfl | rfl | rfl := hp <;> decide
  have hobject : ∀ k ∈ site.sshKeys, caller.hasObjectPerm p k.id = true ↔ k.user = user.id := by
    intro k hk
    rw [hasObjectPerm_iff hs hm hrep hauth hsuper hperm.1, hperm.2, owns_key_iff hk]
  unfold KeyApi.findKey
  rw [hauth]
  constructor
  · intro h
    split at h
    · cases h
    split at h
    · cases h
    · next key hfind =>
      obtain ⟨hk, hid⟩ := (Table.find_eq_some _ _ _).mp hfind
      split at h
      · next hok =>
        cases h
        exact ⟨hk, hid, (hobject _ hk).mp hok⟩
      · cases h
  · rintro ⟨hk, hid, hu⟩
    have hfind : site.sshKeys.find keyId = some k := (Table.find_eq_some _ _ _).mpr ⟨hk, hid⟩
    simp only [hfind, (hobject k hk).mpr hu]
    rfl

/-- In every state of a site an ordinary user is listed exactly their own keys, and finds
exactly these one by one, to read, to certify, to change or to revoke them. With the
global permission the list has everybody's; one by one the others are refused all the
same. -/
theorem keys_shown {start : Site} (hstart : Fresh start) (events : List Event)
    (hm : user ∈ (run step start events).users)
    (hrep : Represents (run step start events) user caller)
    (hauth : caller.isAuthenticated = true) (hsuper : user.isSuperuser = false) (k : SSHKey) :
    let db := (run step start events).toDb
    ((∃ filters keys, filters.userId = none ∧ listKeys caller filters db = .ok keys ∧ k ∈ keys) ↔
      k ∈ db.sshKeys ∧ (caller.hasPerm .viewSshkey = true ∨ k.user = user.id)) ∧
    (∀ keyId, getKey caller keyId db = .ok k ↔
      k ∈ db.sshKeys ∧ k.id = keyId ∧ k.user = user.id) ∧
    ∀ p ∈ [Perm.viewSshkey, .changeSshkey, .deleteSshkey], ∀ keyId,
      KeyApi.findKey caller p keyId db = .ok k ↔
        k ∈ db.sshKeys ∧ k.id = keyId ∧ k.user = user.id := by
  have hs := sound_run hstart events
  have hfind := fun p hp keyId => findKey_iff hs hm hrep hauth hsuper (p := p) hp keyId k
  refine ⟨?_, hfind .viewSshkey List.mem_cons_self, hfind⟩
  rw [mem_listKeys hauth, mem_visible]
  refine and_congr_right fun hk => or_congr Iff.rfl ?_
  rw [hasObjectPerm_iff hs hm hrep hauth hsuper (by decide)]
  exact owns_key_iff hk user.id

theorem mem_listRequests {db : Db} (hauth : caller.isAuthenticated = true) {r : AccessRequest} :
    (∃ filters rows, filters.status = none ∧ filters.serverId = none ∧ filters.requesterId = none ∧
      listRequests caller filters db = .ok rows ∧ r ∈ rows) ↔
        r ∈ visible caller .viewAccessrequest db.accessRequests := by
  have hpage : ∀ filters : AccessQuery, filters.status = none → filters.serverId = none →
      filters.requesterId = none → listRequests caller filters db =
        .ok (page filters.limit filters.offset
          (newestFirst AccessRequest.requestedAt (visible caller .viewAccessrequest db.accessRequests))) := by
    intro filters hstatus hserver hrequester
    simp [listRequests, hauth, hstatus, hserver, hrequester, matching]
  constructor
  · rintro ⟨filters, rows, hstatus, hserver, hrequester, hok, hr⟩
    rw [hpage filters hstatus hserver hrequester] at hok
    cases hok
    exact mem_newestFirst.mp ((exists_mem_page filters.one_le).mp ⟨_, hr⟩)
  · intro hr
    have hmem : r ∈ newestFirst AccessRequest.requestedAt
        (visible caller .viewAccessrequest db.accessRequests) := mem_newestFirst.mpr hr
    obtain ⟨offset, hoffset⟩ := (exists_mem_page Nat.one_pos).mpr hmem
    exact ⟨⟨⟨1, offset, le_rfl, by decide⟩, none, none, none⟩, _, rfl, rfl, rfl, hpage _ rfl rfl rfl,
      hoffset⟩

/-- The same of requests: nobody else's is shown, or takes an update. -/
theorem requests_shown {start : Site} (hstart : Fresh start) (events : List Event)
    (hm : user ∈ (run step start events).users)
    (hrep : Represents (run step start events) user caller)
    (hauth : caller.isAuthenticated = true) (hsuper : user.isSuperuser = false) (r : AccessRequest) :
    let db := (run step start events).toDb
    ((∃ filters rows, filters.status = none ∧ filters.serverId = none ∧ filters.requesterId = none ∧
      listRequests caller filters db = .ok rows ∧ r ∈ rows) ↔
        r ∈ db.accessRequests ∧ (caller.hasPerm .viewAccessrequest = true ∨ r.requester = user.id)) ∧
    (∀ requestId, getRequest caller requestId db = .ok r ↔
      r ∈ db.accessRequests ∧ r.id = requestId ∧ r.requester = user.id) ∧
    (r ∈ db.accessRequests → r.requester ≠ user.id → ∀ cfg now payload,
      Access.updateRequest cfg caller now r.id payload db = .error forbidden) := by
  have hs := sound_run hstart events
  have hobject : ∀ {p} {o : AccessRequest}, OwnerPerm p → permModel p = .accessrequest →
      o ∈ (run step start events).accessRequests →
      (caller.hasObjectPerm p o.id = true ↔ o.requester = user.id) := by
    intro p o hp hmodel ho
    rw [hasObjectPerm_iff hs hm hrep hauth hsuper hp, hmodel, owns_request_iff ho]
  refine ⟨?_, fun requestId => ?_, fun hr hne cfg now payload => ?_⟩
  · rw [mem_listRequests hauth, mem_visible]
    exact and_congr_right fun hr => or_congr Iff.rfl (hobject (by decide) rfl hr)
  · unfold getRequest
    rw [hauth]
    constructor
    · intro h
      split at h
      · cases h
      split at h
      · cases h
      · next o hfind =>
        obtain ⟨ho, hid⟩ := (Table.find_eq_some _ _ _).mp hfind
        split at h
        · next hok =>
          cases h
          exact ⟨ho, hid, (hobject (by decide) rfl ho).mp hok⟩
        · cases h
    · rintro ⟨hr, hid, hu⟩
      have hfind := (Table.find_eq_some _ _ _).mpr ⟨hr, hid⟩
      have hperm : caller.hasObjectPerm .viewAccessrequest r.id = true :=
        (hobject (by decide) rfl hr).mpr hu
      simp [hfind, hperm]
  · have hfind := (Table.find_eq_some _ r.id _).mpr ⟨hr, rfl⟩
    have hperm : caller.hasObjectPerm .changeAccessrequest r.id = false := by
      rw [← Bool.not_eq_true, hobject (by decide) rfl hr]
      exact hne
    simp [Access.updateRequest, hauth, hfind, Access.applyUpdate, hperm]

end Shown

/-! ## Page after page -/

/-- The event is not dated before what is there. -/
def Timely (site : Site) (e : Event) : Prop :=
  e = .syncObjectPerms ∨ ((∀ k ∈ site.sshKeys, k.createdAt ≤ clock e) ∧
    ∀ r ∈ site.accessRequests, r.requestedAt ≤ clock e)

theorem step_grows {site : Site} {e : Event} (h : Timely site e) :
    Grows frozenKey SSHKey.createdAt site.sshKeys (step site e).sshKeys ∧
    Grows frozenRequest AccessRequest.requestedAt site.accessRequests (step site e).accessRequests := by
  obtain rfl | ⟨hkeys, hrequests⟩ := h
  · obtain ⟨p, hp⟩ := syncObjectPerms_frame site
    rw [step, hp]
    exact ⟨Grows.refl _ _ _, Grows.refl _ _ _⟩
  · have hchain := step_chain site e
    exact ⟨(chain_keys hchain).mono fun s _ hs k hk => hs ▸ hkeys k hk,
      (chain_requests hchain).mono fun s _ hs r hr => hs ▸ hrequests r hr⟩

theorem run_grows {site : Site} {events : List Event} (h : Along step Timely site events) :
    Grows frozenKey SSHKey.createdAt site.sshKeys (run step site events).sshKeys ∧
    Grows frozenRequest AccessRequest.requestedAt site.accessRequests
      (run step site events).accessRequests := by
  induction events generalizing site with
  | nil => exact ⟨Grows.refl _ _ _, Grows.refl _ _ _⟩
  | cons e events ih =>
    obtain ⟨hkeys, hrequests⟩ := step_grows h.1
    obtain ⟨hkeys', hrequests'⟩ := ih h.2
    exact ⟨hkeys.trans hkeys', hrequests.trans hrequests'⟩

/-- The site when page `i` is asked for. -/
def moment (start : Site) (between : Nat → List Event) : Nat → Site
  | 0 => start
  | i + 1 => run step (moment start between i) (between i)

/-- The caller asks for the list as the user `u`: `all` says whether with the global
permission. -/
structure Asks (site : Site) (p : Perm) (all : Bool) (u : UserId) (caller : Caller) : Prop where
  authenticated : caller.isAuthenticated = true
  perm : caller.hasPerm p = all
  user : all = false → ∃ user ∈ site.users, user.id = u ∧ Represents site user caller

section Read

variable {all : Bool} {u : UserId}

/-- Without the global permission, the rows of the user. -/
theorem visible_eq {ρ : Type} [Keyed ρ Nat] {site : Site} {caller : Caller} (p : Perm)
    (owner : ρ → UserId) (t : Table ρ) (hs : Sound site) (hp : OwnerPerm p)
    (howner : ∀ r ∈ t, ∀ v, Owns site.toDb v (permModel p) (Keyed.key r) ↔ owner r = v)
    (hasks : Asks site p all u caller) :
    visible caller p t = t.toList.filter fun r => all || owner r = u := by
  unfold visible
  rw [hasks.perm]
  cases all with
  | true => simp
  | false =>
    obtain ⟨user, hm, rfl, hrep⟩ := hasks.user rfl
    have hsuper : user.isSuperuser = false := by
      have hperm := hasks.perm
      rw [hrep.perm, hasPerm, ← hrep.authenticated, hasks.authenticated] at hperm
      by_contra hsuper
      simp [hsuper] at hperm
    simp only [Bool.false_eq_true, if_false, Bool.false_or]
    refine List.filter_congr fun r hr => ?_
    rw [Bool.eq_iff_iff, hasObjectPerm_iff hs hm hrep hasks.authenticated hsuper hp, decide_eq_true_eq]
    exact howner r hr user.id

/-- The keys that are listed, by columns that stay. -/
def selectsKey (all : Bool) (u : UserId) (userId : Option Int) (k : SSHKey) : Bool :=
  (!all || matching userId k.user) && (all || k.user = u)

def selectsRequest (all : Bool) (u : UserId) (serverId requesterId : Option Int)
    (r : AccessRequest) : Bool :=
  matching serverId r.server && ((!all || matching requesterId r.requester) && (all || r.requester = u))

theorem listKeys_shown {site : Site} {caller : Caller} {filters : KeysQuery} {keys : List SSHKey}
    (hs : Sound site) (hasks : Asks site .viewSshkey all u caller)
    (h : listKeys caller filters site.toDb = .ok keys) :
    keys.map frozenKey = page filters.limit filters.offset
      (shown frozenKey SSHKey.createdAt (selectsKey all u filters.userId) site.sshKeys) := by
  have hvisible := visible_eq .viewSshkey SSHKey.user site.sshKeys hs (by decide)
    (fun k hk v => owns_key_iff hk v) hasks
  simp only [listKeys, hasks.authenticated, hasks.perm, hvisible, List.filter_filter, Bool.not_true,
    Bool.false_eq_true, if_false, Except.ok.injEq] at h
  subst h
  have htime : ∀ k, (frozenKey k).createdAt = k.createdAt := fun _ => rfl
  rw [page_map, newestFirst_map SSHKey.createdAt htime]
  rfl

theorem listRequests_shown {site : Site} {caller : Caller} {filters : AccessQuery}
    {rows : List AccessRequest} (hs : Sound site) (hasks : Asks site .viewAccessrequest all u caller)
    (hstatus : filters.status = none) (h : listRequests caller filters site.toDb = .ok rows) :
    rows.map frozenRequest = page filters.limit filters.offset
      (shown frozenRequest AccessRequest.requestedAt
        (selectsRequest all u filters.serverId filters.requesterId) site.accessRequests) := by
  have hvisible := visible_eq .viewAccessrequest AccessRequest.requester site.accessRequests hs
    (by decide) (fun r hr v => owns_request_iff hr v) hasks
  simp only [listRequests, hasks.authenticated, hasks.perm, hvisible, hstatus, Option.all_none,
    List.filter_filter, Bool.true_and, Bool.not_true, Bool.false_eq_true, if_false,
    Except.ok.injEq] at h
  subst h
  have htime : ∀ r, (frozenRequest r).requestedAt = r.requestedAt := fun _ => rfl
  rw [page_map, newestFirst_map AccessRequest.requestedAt htime]
  rfl

theorem moment_sound {start : Site} (h : Sound start) (between : Nat → List Event) (i : Nat) :
    Sound (moment start between i) := by
  induction i with
  | zero => exact h
  | succ i ih => exact run_preserves (fun _ e hs => sound_step e hs) ih (between i)

/-- A reader who asks for the keys page after page, with the same filter, up to a page
that is not full, has seen every key that was there to be seen at the start. What others,
or the reader, create and change between the pages does not matter, as long as the
clock is not put back and no two keys are created at the same time. -/
theorem keys_read {start : Site} (hstart : Fresh start) (before : List Event)
    (between : Nat → List Event) {n limit : Nat} {userId : Option Int} {caller : Nat → Caller}
    {filters : Nat → KeysQuery} {answer : Nat → List SSHKey}
    (hfilters : ∀ i ≤ n, (filters i).limit = limit ∧ (filters i).offset = i * limit ∧
      (filters i).userId = userId)
    (hasks : ∀ i ≤ n,
      Asks (moment (run step start before) between i) .viewSshkey all u (caller i))
    (htimely : ∀ i < n, Along step Timely (moment (run step start before) between i) (between i))
    (hdistinct : ∀ k ∈ (moment (run step start before) between n).sshKeys,
      ∀ k' ∈ (moment (run step start before) between n).sshKeys, k.createdAt = k'.createdAt → k = k')
    (hanswer : ∀ i ≤ n, listKeys (caller i) (filters i)
      (moment (run step start before) between i).toDb = .ok (answer i))
    (hlast : (answer n).length < limit) {k : SSHKey} (hk : k ∈ (run step start before).sshKeys)
    (hselects : selectsKey all u userId k = true) :
    ∃ i ≤ n, ∃ k' ∈ answer i, frozenKey k' = frozenKey k := by
  refine read_all (t := fun i => (moment (run step start before) between i).sshKeys)
    (p := selectsKey all u userId) (fun i hi => (run_grows (htimely i hi)).1)
    (fun _ _ => id_of_frozenKey) hdistinct (fun i hi => ?_) hlast hk hselects
  obtain ⟨hlimit, hoffset, huser⟩ := hfilters i hi
  rw [listKeys_shown (moment_sound (sound_run hstart before) between i) (hasks i hi) (hanswer i hi),
    hlimit, hoffset, huser]

/-- The same of requests, by server and by requester; with a filter by status a request
that is decided between two pages moves others up, past the reader. -/
theorem requests_read {start : Site} (hstart : Fresh start) (before : List Event)
    (between : Nat → List Event) {n limit : Nat} {serverId requesterId : Option Int}
    {caller : Nat → Caller} {filters : Nat → AccessQuery} {answer : Nat → List AccessRequest}
    (hfilters : ∀ i ≤ n, (filters i).limit = limit ∧ (filters i).offset = i * limit ∧
      (filters i).status = none ∧ (filters i).serverId = serverId ∧
      (filters i).requesterId = requesterId)
    (hasks : ∀ i ≤ n,
      Asks (moment (run step start before) between i) .viewAccessrequest all u (caller i))
    (htimely : ∀ i < n, Along step Timely (moment (run step start before) between i) (between i))
    (hdistinct : ∀ r ∈ (moment (run step start before) between n).accessRequests,
      ∀ r' ∈ (moment (run step start before) between n).accessRequests,
        r.requestedAt = r'.requestedAt → r = r')
    (hanswer : ∀ i ≤ n, listRequests (caller i) (filters i)
      (moment (run step start before) between i).toDb = .ok (answer i))
    (hlast : (answer n).length < limit) {r : AccessRequest}
    (hr : r ∈ (run step start before).accessRequests)
    (hselects : selectsRequest all u serverId requesterId r = true) :
    ∃ i ≤ n, ∃ r' ∈ answer i, frozenRequest r' = frozenRequest r := by
  refine read_all (t := fun i => (moment (run step start before) between i).accessRequests)
    (p := selectsRequest all u serverId requesterId) (fun i hi => (run_grows (htimely i hi)).2)
    (fun _ _ => id_of_frozenRequest) hdistinct (fun i hi => ?_) hlast hr hselects
  obtain ⟨hlimit, hoffset, hstatus, hserver, hrequester⟩ := hfilters i hi
  rw [listRequests_shown (moment_sound (sound_run hstart before) between i) (hasks i hi) hstatus
    (hanswer i hi), hlimit, hoffset, hserver, hrequester]

end Read

/-! ## Two users with a key and a request each -/

def village : Site := { household with servers := AccessRun.oneServer.servers }

theorem village_fresh : Fresh village :=
  ⟨household_fresh.keys, household_fresh.requests, household_fresh.certificates,
    household_fresh.permissions, household_fresh.groups⟩

def asked : Access.AccessRequestCreateIn := ⟨1, none, false, false, false, none⟩

def aliceAsks : List Event :=
  aliceAdds ++ [.access AccessRun.utc 1000 (.createRequest aliceCaller asked)]

def bobKey : Event := .keys ⟨{ workingEnv with now := 2000 },
  .createKey stranger ⟨"desk".toList, "ssh-ed25519 AAAA".toList, none⟩⟩

/-- Bob does the same after the first page. -/
def bobAsks (i : Nat) : List Event :=
  if i = 0 then [bobKey, .access AccessRun.utc 2000 (.createRequest stranger asked)] else []

def afterAlice : Site := run step village aliceAsks

def aliceKey : SSHKey := (afterAlice.sshKeys.find 1).getD laptop

def aliceRequest : AccessRequest :=
  (afterAlice.accessRequests.find 1).getD ⟨0, 0, 0, .pending, [], false, false, false, 0, none, none, none⟩

/-- Alice, as guardian's rows then have it. -/
def aliceOwner : Caller := ⟨1, true, [.addAccessrequest, .addSshkey],
  [(.viewSshkey, 1), (.changeSshkey, 1), (.deleteSshkey, 1), (.viewAccessrequest, 1),
    (.changeAccessrequest, 1)]⟩

theorem aliceOwner_represents : Represents afterAlice alice aliceOwner := by
  refine ⟨rfl, rfl, fun p => by cases p <;> decide, fun p object => ?_⟩
  have hperms : afterAlice.userObjectPermissions = {⟨1, .viewSshkey, 1⟩, ⟨1, .changeSshkey, 1⟩,
      ⟨1, .deleteSshkey, 1⟩, ⟨1, .viewAccessrequest, 1⟩, ⟨1, .changeAccessrequest, 1⟩} := by decide
  have hgroups : afterAlice.groupObjectPermissions = ∅ := rfl
  rw [Bool.eq_iff_iff]
  simp [Caller.hasObjectPerm, aliceOwner, hasObjectPerm, granted, hperms, hgroups, alice]

theorem alice_listed_key : ∃ filters keys, filters.userId = none ∧
    listKeys aliceOwner filters afterAlice.toDb = .ok keys ∧ aliceKey ∈ keys :=
  (keys_shown village_fresh aliceAsks (by decide) aliceOwner_represents rfl rfl aliceKey).1.mpr
    ⟨by decide, .inr rfl⟩

theorem alice_listed_request : ∃ filters rows, filters.status = none ∧ filters.serverId = none ∧
    filters.requesterId = none ∧ listRequests aliceOwner filters afterAlice.toDb = .ok rows ∧
    aliceRequest ∈ rows :=
  (requests_shown village_fresh aliceAsks (by decide) aliceOwner_represents rfl rfl aliceRequest).1.mpr
    ⟨by decide, .inr rfl⟩

def auditor : Caller := ⟨9, true, [.viewSshkey, .viewAccessrequest], []⟩

def oneRow (i : Nat) : Window := ⟨1, i, le_rfl, by decide⟩

theorem bobAsks_timely : ∀ i < 2, Along step Timely (moment afterAlice bobAsks i) (bobAsks i) := by
  intro i hi
  obtain _ | _ | i := i
  · have hbefore : (∀ k ∈ afterAlice.sshKeys.toList, k.createdAt ≤ 2000) ∧
        ∀ r ∈ afterAlice.accessRequests.toList, r.requestedAt ≤ 2000 := by decide
    have hkey : (∀ k ∈ (step afterAlice bobKey).sshKeys.toList, k.createdAt ≤ 2000) ∧
        ∀ r ∈ (step afterAlice bobKey).accessRequests.toList, r.requestedAt ≤ 2000 := by
      decide
    exact ⟨.inr hbefore, .inr hkey, trivial⟩
  · trivial
  · omega

def keyFilters (i : Nat) : KeysQuery := ⟨oneRow i, none⟩

def keyPage (i : Nat) : List SSHKey :=
  (listKeys auditor (keyFilters i) (moment afterAlice bobAsks i).toDb).toOption.getD []

/-- Bob's key comes in first, so the second page is the first one again. -/
theorem auditor_reads_key : ∃ i ≤ 2, ∃ k ∈ keyPage i, frozenKey k = frozenKey aliceKey := by
  have hfilters : ∀ i ≤ 2, (keyFilters i).limit = 1 ∧ (keyFilters i).offset = i * 1 ∧
      (keyFilters i).userId = none := fun _ _ => ⟨rfl, (Nat.mul_one _).symm, rfl⟩
  have hasks : ∀ i ≤ 2, Asks (moment afterAlice bobAsks i) .viewSshkey true 1 auditor :=
    fun _ _ => ⟨rfl, rfl, fun h => by cases h⟩
  have hdistinct : ∀ k ∈ (moment afterAlice bobAsks 2).sshKeys.toList,
      ∀ k' ∈ (moment afterAlice bobAsks 2).sshKeys.toList, k.createdAt = k'.createdAt → k = k' := by
    decide
  have hanswer : ∀ i ≤ 2, listKeys auditor (keyFilters i) (moment afterAlice bobAsks i).toDb =
      .ok (keyPage i) := fun _ _ => rfl
  exact keys_read village_fresh aliceAsks bobAsks hfilters hasks bobAsks_timely hdistinct hanswer
    (by decide) (by decide) (by decide)

def requestFilters (i : Nat) : AccessQuery := ⟨oneRow i, none, none, none⟩

def requestPage (i : Nat) : List AccessRequest :=
  (listRequests auditor (requestFilters i) (moment afterAlice bobAsks i).toDb).toOption.getD []

theorem auditor_reads_request :
    ∃ i ≤ 2, ∃ r ∈ requestPage i, frozenRequest r = frozenRequest aliceRequest := by
  have hfilters : ∀ i ≤ 2, (requestFilters i).limit = 1 ∧ (requestFilters i).offset = i * 1 ∧
      (requestFilters i).status = none ∧ (requestFilters i).serverId = none ∧
      (requestFilters i).requesterId = none := fun _ _ => ⟨rfl, (Nat.mul_one _).symm, rfl, rfl, rfl⟩
  have hasks : ∀ i ≤ 2, Asks (moment afterAlice bobAsks i) .viewAccessrequest true 1 auditor :=
    fun _ _ => ⟨rfl, rfl, fun h => by cases h⟩
  have hdistinct : ∀ r ∈ (moment afterAlice bobAsks 2).accessRequests.toList,
      ∀ r' ∈ (moment afterAlice bobAsks 2).accessRequests.toList,
        r.requestedAt = r'.requestedAt → r = r' := by decide
  have hanswer : ∀ i ≤ 2, listRequests auditor (requestFilters i) (moment afterAlice bobAsks i).toDb =
      .ok (requestPage i) := fun _ _ => rfl
  exact requests_read village_fresh aliceAsks bobAsks hfilters hasks bobAsks_timely hdistinct hanswer
    (by decide) (by decide) (by decide)

end Keywarden.Listings
