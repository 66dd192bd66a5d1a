import Mathlib.Order.ConditionallyCompleteLattice.Basic
import Mathlib.Data.Int.ConditionallyCompleteOrder
import Mathlib.Data.List.Sort
import Keywarden.Shell

/-!
# When access ends, on the dashboard and on the page of a server

A user may have several requests for a server. The dashboard folds all that grant it, no expiry
standing for no end; the page of the server takes the request that was made last. The end of the
access is the greatest expiry, in the order where no expiry is above every instant.
-/
namespace Keywarden.AccessExpiry

open Rows Username Access

/-- The filter of both views, but for the server. -/
def granting (now : Instant) (u : UserId) (r : AccessRequest) : Bool :=
  r.requester = u && r.status = .approved && unexpired now r

/-- A dictionary by the server; a key may have the value `None`. -/
abbrev ExpiresMap := ServerId → Option (Option Instant)

def ExpiresMap.set (m : ExpiresMap) (s : ServerId) (expiresAt : Option Instant) : ExpiresMap :=
  fun server => if server = s then some expiresAt else m server

/-- One turn of the loop. -/
def keep (m : ExpiresMap) (access : AccessRequest) : ExpiresMap :=
  match m access.server with
  | none => m.set access.server access.expiresAt
  | some none => m
  | some (some current) =>
    match access.expiresAt with
    | none => m.set access.server none
    | some expiresAt => if current < expiresAt then m.set access.server (some expiresAt) else m

def expiresMap (accessQs : List AccessRequest) : ExpiresMap := accessQs.foldl keep fun _ => none

/-- What a view answers. -/
inductive Response (α : Type) where
  | login
  | notFound
  | page (context : α)
  deriving DecidableEq

/-- `login_required`, and the row of `request.user`. -/
def signedIn (caller : Caller) (db : Db) : Option User :=
  if caller.isAuthenticated then db.users.find caller.id else none

structure Entry where
  server : Server
  expiresAt : Option Instant
  deriving DecidableEq

/-- `rows` are the access requests in the order the database reads them. -/
def dashboard (caller : Caller) (now : Instant) (rows : List AccessRequest) (db : Db) :
    Response (List Entry) :=
  match signedIn caller db with
  | none => .login
  | some _ =>
    let expires := expiresMap (rows.filter (granting now caller.id))
    .page ((db.servers.filter fun server => caller.hasObjectPerm .viewServer server.id).map
      fun server => ⟨server, (expires server.id).join⟩)

def getServerOr404 (caller : Caller) (serverId : Nat) (db : Db) : Option Server :=
  match db.servers.find serverId with
  | none => none
  | some server => if caller.hasObjectPerm .viewServer server.id then some server else none

structure AccountContext where
  account : Option ServerAccount
  systemUsername : List Char
  certificateKeyId : Option Nat
  deriving DecidableEq

/-- The key that is offered is the active one that was added last. -/
def loadAccountContext (cfg : Settings) (T : CaseTable) (user : User) (server : Server) (db : Db) :
    AccountContext where
  account := db.serverAccounts.find (server.id, user.id)
  systemUsername := Shell.getSystemUsername cfg T user server db
  certificateKeyId := (((db.sshKeys.filter fun key => key.user = user.id && key.isActive).insertionSort
    fun a b => b.createdAt ≤ a.createdAt).head?).map SSHKey.id

/-- `order_by("-requested_at").first()`, over the rows in the order they are read. -/
def latestAccess (now : Instant) (u : UserId) (serverId : Nat) (rows : List AccessRequest) :
    Option AccessRequest :=
  ((rows.filter (grants now u serverId)).insertionSort
    fun a b => b.requestedAt ≤ a.requestedAt).head?

structure Detail where
  server : Server
  expiresAt : Option Instant
  accountPresent : Option Bool
  accountSyncedAt : Option Instant
  systemUsername : List Char
  certificateKeyId : Option Nat
  canShell : Bool
  deriving DecidableEq

def detail (cfg : Settings) (T : CaseTable) (caller : Caller) (serverId : Nat) (now : Instant)
    (rows : List AccessRequest) (db : Db) : Response Detail :=
  match signedIn caller db with
  | none => .login
  | some user =>
    match getServerOr404 caller serverId db with
    | none => .notFound
    | some server =>
      let context := loadAccountContext cfg T user server db
      .page {
        server := server
        expiresAt := (latestAccess now caller.id serverId rows).bind AccessRequest.expiresAt
        accountPresent := context.account.map ServerAccount.isPresent
        accountSyncedAt := context.account.map ServerAccount.lastSyncedAt
        systemUsername := context.systemUsername
        certificateKeyId := context.certificateKeyId
        canShell := Shell.userCanShell caller server.id now db }

/-- The expiry the dashboard shows for a server, if it shows the server. -/
def dashboardShows (caller : Caller) (serverId : Nat) (now : Instant) (rows : List AccessRequest)
    (db : Db) : Option (Option Instant) :=
  match dashboard caller now rows db with
  | .page entries => (entries.find? fun entry => entry.server.id = serverId).map Entry.expiresAt
  | _ => none

/-- The expiry its page shows, if there is the page. -/
def detailShows (cfg : Settings) (T : CaseTable) (caller : Caller) (serverId : Nat) (now : Instant)
    (rows : List AccessRequest) (db : Db) : Option (Option Instant) :=
  match detail cfg T caller serverId now rows db with
  | .page context => some context.expiresAt
  | _ => none

/-! ## The end of access -/

/-- No expiry is above every instant. -/
def endOf : Option Instant → WithTop Instant
  | none => ⊤
  | some e => e

@[simp] theorem endOf_none : endOf none = ⊤ := rfl
@[simp] theorem endOf_some (e : Instant) : endOf (some e) = e := rfl

theorem endOf_injective : Function.Injective endOf := by
  intro e e' h
  cases e with
  | none =>
    cases e' with
    | none => rfl
    | some t => exact absurd h.symm (WithTop.coe_ne_top)
  | some t =>
    cases e' with
    | none => exact absurd h (WithTop.coe_ne_top)
    | some t' => rw [WithTop.coe_injective h]

theorem unexpired_iff (now : Instant) (r : AccessRequest) :
    unexpired now r = true ↔ (now : WithTop Instant) < endOf r.expiresAt := by
  unfold unexpired
  cases r.expiresAt with
  | none => simp [WithTop.coe_lt_top]
  | some e => simp [WithTop.coe_lt_coe]

/-- The ends of the rows. -/
def ends (rows : List AccessRequest) : Set (WithTop Instant) :=
  (fun r => endOf r.expiresAt) '' {r | r ∈ rows}

/-- The end of the access that the rows grant: none if one of them has no expiry, else the latest
expiry. -/
def accessEnd (rows : List AccessRequest) : Option Instant :=
  if rows.any fun r => r.expiresAt.isNone then none
  else (rows.filterMap AccessRequest.expiresAt).max?

theorem isGreatest_accessEnd {rows : List AccessRequest} (h : rows ≠ []) :
    IsGreatest (ends rows) (endOf (accessEnd rows)) := by
  unfold accessEnd
  split
  · next hnone =>
    obtain ⟨r, hr, hexp⟩ := List.any_eq_true.mp hnone
    refine ⟨⟨r, hr, ?_⟩, fun e _ => le_top⟩
    simp only [Option.isNone_iff_eq_none.mp hexp]
  · next hsome =>
    have hexp : ∀ r ∈ rows, ∃ e, r.expiresAt = some e := by
      intro r hr
      cases he : r.expiresAt with
      | none => exact absurd (List.any_eq_true.mpr ⟨r, hr, by simp [he]⟩) hsome
      | some e => exact ⟨e, rfl⟩
    cases hmax : (rows.filterMap AccessRequest.expiresAt).max? with
    | none =>
      obtain ⟨r, hr⟩ := List.exists_mem_of_ne_nil rows h
      obtain ⟨e, he⟩ := hexp r hr
      have hnil := List.max?_eq_none_iff.mp hmax
      exact absurd (List.mem_filterMap.mpr ⟨r, hr, he⟩) (by simp [hnil])
    | some e =>
      obtain ⟨hmem, hle⟩ := List.max?_eq_some_iff.mp hmax
      obtain ⟨r, hr, he⟩ := List.mem_filterMap.mp hmem
      refine ⟨⟨r, hr, by simp only [he]⟩, ?_⟩
      rintro _ ⟨o, ho, rfl⟩
      obtain ⟨e', he'⟩ := hexp o ho
      simp only [he', endOf_some, WithTop.coe_le_coe]
      exact hle e' (List.mem_filterMap.mpr ⟨o, ho, he'⟩)

theorem isGreatest_of_endOf {rows : List AccessRequest} {e : Option Instant}
    (h : IsGreatest (ends rows) (endOf e)) : e = accessEnd rows := by
  have hrows : rows ≠ [] := by
    rintro rfl
    obtain ⟨r, hr, _⟩ := h.1
    exact List.not_mem_nil hr
  exact endOf_injective (h.unique (isGreatest_accessEnd hrows))

theorem ends_congr {rows rows' : List AccessRequest} (h : ∀ r, r ∈ rows ↔ r ∈ rows') :
    ends rows = ends rows' := by
  have hset : {r | r ∈ rows} = {r | r ∈ rows'} := Set.ext h
  rw [ends, hset, ends]

/-- The order the rows are read in does not matter to the end. -/
theorem accessEnd_perm {rows rows' : List AccessRequest} (h : rows.Perm rows') :
    accessEnd rows = accessEnd rows' := by
  by_cases hnil : rows = []
  · subst hnil
    rw [h.nil_eq]
  · have hgreatest := isGreatest_accessEnd hnil
    rw [ends_congr fun r => h.mem_iff] at hgreatest
    exact isGreatest_of_endOf hgreatest

/-! ## The loop -/

theorem ends_append (rows : List AccessRequest) (r : AccessRequest) :
    ends (rows ++ [r]) = insert (endOf r.expiresAt) (ends rows) := by
  ext e
  simp only [ends, Set.mem_image, Set.mem_ofPred_eq, List.mem_append, List.mem_singleton,
    Set.mem_insert_iff]
  constructor
  · rintro ⟨o, ho | rfl, rfl⟩
    · exact .inr ⟨o, ho, rfl⟩
    · exact .inl rfl
  · rintro (rfl | ⟨o, ho, rfl⟩)
    · exact ⟨r, .inr rfl, rfl⟩
    · exact ⟨o, .inl ho, rfl⟩

@[simp] theorem set_same (m : ExpiresMap) (s : ServerId) (e : Option Instant) :
    m.set s e s = some e := by simp [ExpiresMap.set]

theorem set_other {m : ExpiresMap} {s server : ServerId} (e : Option Instant) (h : server ≠ s) :
    m.set s e server = m server := by simp [ExpiresMap.set, h]

theorem keep_other {m : ExpiresMap} {access : AccessRequest} {server : ServerId}
    (h : server ≠ access.server) : keep m access server = m server := by
  unfold keep
  cases m access.server with
  | none => exact set_other _ h
  | some current =>
    cases current with
    | none => rfl
    | some current =>
      cases access.expiresAt with
      | none => exact set_other _ h
      | some expiresAt =>
        simp only
        split
        · exact set_other _ h
        · rfl

theorem keep_none {m : ExpiresMap} {access : AccessRequest} (h : m access.server = none) :
    keep m access access.server = some access.expiresAt := by
  unfold keep
  rw [h]
  exact set_same ..

/-- The later of the two ends is kept. -/
theorem keep_some {m : ExpiresMap} {access : AccessRequest} {e : Option Instant}
    (h : m access.server = some e) : ∃ e', keep m access access.server = some e' ∧
      endOf e' = max (endOf access.expiresAt) (endOf e) := by
  unfold keep
  rw [h]
  cases e with
  | none => exact ⟨none, h, by simp⟩
  | some current =>
    cases hexp : access.expiresAt with
    | none => exact ⟨none, set_same .., by simp⟩
    | some expiresAt =>
      simp only [endOf_some]
      split
      · next hlt =>
        refine ⟨some expiresAt, set_same .., (max_eq_left ?_).symm⟩
        exact WithTop.coe_le_coe.mpr hlt.le
      · next hle =>
        refine ⟨some current, h, (max_eq_right ?_).symm⟩
        exact WithTop.coe_le_coe.mpr (not_lt.mp hle)

/-- The rows of a server. -/
def onServer (s : ServerId) (rows : List AccessRequest) : List AccessRequest :=
  rows.filter fun r => r.server = s

/-- What the dictionary has for a server after some of its rows. -/
inductive Covered (rows : List AccessRequest) : Option (Option Instant) → Prop
  | absent (nil : rows = []) : Covered rows none
  | greatest (e : Option Instant) (greatest : IsGreatest (ends rows) (endOf e)) :
      Covered rows (some e)

theorem covered_keep {seen : List AccessRequest} {m : ExpiresMap} (access : AccessRequest)
    (h : ∀ s, Covered (onServer s seen) (m s)) :
    ∀ s, Covered (onServer s (seen ++ [access])) (keep m access s) := by
  intro s
  by_cases hs : s = access.server
  · subst hs
    have hon : onServer access.server (seen ++ [access]) = onServer access.server seen ++ [access] := by
      simp [onServer]
    rw [hon]
    generalize hm : m access.server = current
    have hcovered := h access.server
    rw [hm] at hcovered
    cases hcovered with
    | absent hnone =>
      rw [keep_none hm, hnone]
      refine .greatest _ ?_
      rw [ends_append]
      simp [ends]
    | greatest e hgreatest =>
      obtain ⟨e', hkeep, hmax⟩ := keep_some hm
      rw [hkeep]
      refine .greatest _ ?_
      rw [ends_append, hmax]
      exact hgreatest.insert _
  · have hon : onServer s (seen ++ [access]) = onServer s seen := by
      simp [onServer, Ne.symm hs]
    rw [hon, keep_other hs]
    exact h s

theorem covered_foldl (rows : List AccessRequest) {seen : List AccessRequest} {m : ExpiresMap}
    (h : ∀ s, Covered (onServer s seen) (m s)) :
    ∀ s, Covered (onServer s (seen ++ rows)) (rows.foldl keep m s) := by
  induction rows generalizing seen m with
  | nil => simpa using h
  | cons access rows ih =>
    rw [List.append_cons]
    exact ih (covered_keep access h)

/-- Whatever the order of the rows, the dictionary has the end of the access to each server. -/
theorem expiresMap_join (accessQs : List AccessRequest) (s : ServerId) :
    (expiresMap accessQs s).join = accessEnd (onServer s accessQs) := by
  have hcovered := covered_foldl accessQs (fun s => .absent rfl : ∀ s, Covered (onServer s []) none) s
  rw [List.nil_append] at hcovered
  change Covered (onServer s accessQs) (expiresMap accessQs s) at hcovered
  generalize expiresMap accessQs s = value at hcovered
  cases hcovered with
  | absent hnone => rw [hnone]; rfl
  | greatest e hgreatest => exact isGreatest_of_endOf hgreatest

/-! ## What the pages show -/

section
variable {cfg : Settings} {T : CaseTable} {caller : Caller} {s : ServerId} {now : Instant}
  {rows : List AccessRequest} {db : Db}

theorem onServer_granting (now : Instant) (u : UserId) (s : ServerId) (rows : List AccessRequest) :
    onServer s (rows.filter (granting now u)) = rows.filter (grants now u s) := by
  rw [onServer, List.filter_filter]
  refine List.filter_congr fun r _ => ?_
  rw [Bool.eq_iff_iff]
  simp only [granting, grants, Bool.and_eq_true, decide_eq_true_eq]
  tauto

theorem getServerOr404_some {server : Server} (h : getServerOr404 caller s db = some server) :
    db.servers.find s = some server ∧ caller.hasObjectPerm .viewServer server.id = true := by
  unfold getServerOr404 at h
  cases hfind : db.servers.find s with
  | none =>
    rw [hfind] at h
    cases h
  | some o =>
    rw [hfind] at h
    simp only [Option.ite_none_right_eq_some] at h
    obtain ⟨hview, hserver⟩ := h
    cases hserver
    exact ⟨rfl, hview⟩

/-- The dashboard shows the end of the access. -/
theorem dashboardShows_eq (hsigned : (signedIn caller db).isSome = true)
    (hserver : (getServerOr404 caller s db).isSome = true) :
    dashboardShows caller s now rows db = some (accessEnd (rows.filter (grants now caller.id s))) := by
  obtain ⟨user, huser⟩ := Option.isSome_iff_exists.mp hsigned
  obtain ⟨server, hs⟩ := Option.isSome_iff_exists.mp hserver
  obtain ⟨hfind, hview⟩ := getServerOr404_some hs
  obtain ⟨hmem, hid⟩ := (Table.find_eq_some _ _ _).mp hfind
  have hid : server.id = s := hid
  have hshown : (db.servers.filter fun server => caller.hasObjectPerm .viewServer server.id).find?
      (fun server => server.id = s) = some server := by
    cases hfound : (db.servers.filter fun server =>
        caller.hasObjectPerm .viewServer server.id).find? fun server => server.id = s with
    | none =>
      have hnone := List.find?_eq_none.mp hfound server ((Table.mem_filter _ _ _).mpr ⟨hmem, hview⟩)
      exact absurd hid (by simpa using hnone)
    | some o =>
      have ho : o ∈ db.servers := ((Table.mem_filter _ _ _).mp (List.mem_of_find?_eq_some hfound)).1
      have hoid : o.id = s := by simpa using List.find?_some hfound
      rw [db.servers.eq_of_key ho hmem (hoid.trans hid.symm)]
  simp only [dashboardShows, dashboard, huser, List.find?_map, Function.comp_def, hshown,
    Option.map_some, hid, expiresMap_join, onServer_granting]

/-- The page of a server shows the expiry of the request that was made last. -/
theorem detailShows_eq (hsigned : (signedIn caller db).isSome = true)
    (hserver : (getServerOr404 caller s db).isSome = true) :
    detailShows cfg T caller s now rows db =
      some ((latestAccess now caller.id s rows).bind AccessRequest.expiresAt) := by
  obtain ⟨user, huser⟩ := Option.isSome_iff_exists.mp hsigned
  obtain ⟨server, hs⟩ := Option.isSome_iff_exists.mp hserver
  simp only [detailShows, detail, huser, hs]

theorem latestAccess_some {u : UserId} {r : AccessRequest}
    (h : latestAccess now u s rows = some r) : r ∈ rows.filter (grants now u s) ∧
      ∀ o ∈ rows.filter (grants now u s), o.requestedAt ≤ r.requestedAt := by
  refine ⟨mem_of_first h, fun o ho => ?_⟩
  by_cases hne : o = r
  · rw [hne]
  · exact rel_of_first h o ho hne

/-- A request that was made last is the one that is found, if it is read first. -/
theorem latestAccess_of_first {u : UserId} {r : AccessRequest} (hgrants : grants now u s r = true)
    (hlatest : ∀ o ∈ rows.filter (grants now u s), o.requestedAt ≤ r.requestedAt) :
    latestAccess now u s (r :: rows) = some r := by
  rw [latestAccess, List.filter_cons_of_pos hgrants, List.insertionSort_cons_of_forall_rel _ hlatest,
    List.head?_cons]

end

/-! ## Which pages are right -/

/-- The requests that grant the user the server. -/
def granted (now : Instant) (u : UserId) (s : ServerId) (db : Db) : List AccessRequest :=
  db.accessRequests.filter (grants now u s)

/-- From now on there is access before the end, and none after it. -/
def Lasts (now : Instant) (u : UserId) (s : ServerId) (db : Db) (e : Option Instant) : Prop :=
  ∀ t, now ≤ t → (hasValidAccess t u s db = true ↔ (t : WithTop Instant) < endOf e)

theorem granted_ne_nil {now : Instant} {u : UserId} {s : ServerId} {db : Db}
    (h : hasValidAccess now u s db = true) : granted now u s db ≠ [] := by
  obtain ⟨r, hr, hgrants⟩ := (Table.any_iff _ _).mp h
  exact List.ne_nil_of_mem ((Table.mem_filter _ _ _).mpr ⟨hr, hgrants⟩)

/-- Access really lasts until its end. -/
theorem lasts_accessEnd {now : Instant} {u : UserId} {s : ServerId} {db : Db}
    (h : hasValidAccess now u s db = true) : Lasts now u s db (accessEnd (granted now u s db)) := by
  obtain ⟨⟨r, hr, hattained⟩, hgreatest⟩ := isGreatest_accessEnd (granted_ne_nil h)
  simp only at hattained
  intro t hle
  rw [hasValidAccess_iff]
  constructor
  · rintro ⟨o, ho, hu, hs, happroved, hunexp⟩
    have hlt := (unexpired_iff t o).mp hunexp
    have hnow : unexpired now o = true :=
      (unexpired_iff now o).mpr (lt_of_le_of_lt (WithTop.coe_le_coe.mpr hle) hlt)
    refine lt_of_lt_of_le hlt (hgreatest ⟨o, (Table.mem_filter _ _ _).mpr ⟨ho, ?_⟩, rfl⟩)
    simp [grants, hu, hs, happroved, hnow]
  · intro hlt
    obtain ⟨hmem, hgrants⟩ := (Table.mem_filter _ _ _).mp hr
    simp only [grants, Bool.and_eq_true, decide_eq_true_eq] at hgrants
    obtain ⟨⟨⟨hu, hs⟩, happroved⟩, _⟩ := hgrants
    exact ⟨r, hmem, hu, hs, happroved, (unexpired_iff t r).mpr (hattained ▸ hlt)⟩

/-- A synchronisation at a later time leaves the permission until then. -/
theorem holdsView_sync_iff {now t : Instant} {r : AccessRequest} {db : Db}
    (h : hasValidAccess now r.requester r.server db = true) (hle : now ≤ t) :
    HoldsView (syncServerViewPerm t r db) r.requester r.server ↔
      (t : WithTop Instant) < endOf (accessEnd (granted now r.requester r.server db)) := by
  rw [holdsView_sync, if_pos ⟨rfl, rfl⟩]
  exact lasts_accessEnd h t hle

/-- Both pages show when access really ends, in whatever order the rows are read. -/
structure ShowEnd (cfg : Settings) (T : CaseTable) (caller : Caller) (s : ServerId) (now : Instant)
    (db : Db) : Prop where
  lasts : Lasts now caller.id s db (accessEnd (granted now caller.id s db))
  dashboard : ∀ rows, rows.Perm db.accessRequests.toList →
    dashboardShows caller s now rows db = some (accessEnd (granted now caller.id s db))
  detail : ∀ rows, rows.Perm db.accessRequests.toList →
    detailShows cfg T caller s now rows db = some (accessEnd (granted now caller.id s db))

/-- Of the requests that grant the server, those made last end last. -/
def LatestEndsLast (now : Instant) (u : UserId) (s : ServerId) (db : Db) : Prop :=
  ∀ r ∈ granted now u s db, (∀ o ∈ granted now u s db, o.requestedAt ≤ r.requestedAt) →
    ∀ o ∈ granted now u s db, endOf o.expiresAt ≤ endOf r.expiresAt

/-- A page that shows the end in every order shows it when a request that was made last is read
first. -/
theorem latestEndsLast_of_detail {cfg : Settings} {T : CaseTable} {caller : Caller} {s : ServerId}
    {now : Instant} {db : Db} (hsigned : (signedIn caller db).isSome = true)
    (hserver : (getServerOr404 caller s db).isSome = true)
    (hvalid : hasValidAccess now caller.id s db = true)
    (h : ∀ rows, rows.Perm db.accessRequests.toList → detailShows cfg T caller s now rows db =
      some (accessEnd (granted now caller.id s db))) : LatestEndsLast now caller.id s db := by
  intro r hr hlatest o ho
  obtain ⟨hmem, hgrants⟩ := (Table.mem_filter _ _ _).mp hr
  have hfirst : latestAccess now caller.id s (r :: db.accessRequests.toList.erase r) = some r := by
    refine latestAccess_of_first hgrants fun o ho => ?_
    obtain ⟨ho, hgrants⟩ := List.mem_filter.mp ho
    exact hlatest o ((Table.mem_filter _ _ _).mpr ⟨List.mem_of_mem_erase ho, hgrants⟩)
  have hshows := h (r :: db.accessRequests.toList.erase r) (List.perm_cons_erase hmem).symm
  rw [detailShows_eq hsigned hserver, hfirst, Option.bind_some, Option.some.injEq] at hshows
  rw [hshows]
  exact (isGreatest_accessEnd (granted_ne_nil hvalid)).2 ⟨o, ho, rfl⟩

/-- The request that is found, in whatever order, ends last. -/
theorem latestAccess_end {now : Instant} {u : UserId} {s : ServerId} {db : Db}
    {rows : List AccessRequest} (hvalid : hasValidAccess now u s db = true)
    (hlatest : LatestEndsLast now u s db) (hperm : rows.Perm db.accessRequests.toList) :
    (latestAccess now u s rows).bind AccessRequest.expiresAt = accessEnd (granted now u s db) := by
  have hiff : ∀ r, r ∈ rows.filter (grants now u s) ↔ r ∈ granted now u s db :=
    fun r => (hperm.filter _).mem_iff
  cases hfound : latestAccess now u s rows with
  | none =>
    obtain ⟨r, hr⟩ := List.exists_mem_of_ne_nil _ (granted_ne_nil hvalid)
    have hr := (hiff r).mpr hr
    rw [eq_nil_of_first hfound] at hr
    exact absurd hr List.not_mem_nil
  | some r =>
    obtain ⟨hmem, hlast⟩ := latestAccess_some hfound
    have hr := (hiff r).mp hmem
    refine isGreatest_of_endOf ⟨⟨r, hr, rfl⟩, ?_⟩
    rintro _ ⟨o, ho, rfl⟩
    exact hlatest r hr (fun o ho => hlast o ((hiff o).mpr ho)) o ho

/-- For any requests of a user who may open the pages of a server and has access to it: both pages
show when the access ends if and only if the requests made last end last. -/
theorem showEnd_iff (cfg : Settings) (T : CaseTable) (caller : Caller) (s : ServerId)
    (now : Instant) (db : Db) (hsigned : (signedIn caller db).isSome = true)
    (hserver : (getServerOr404 caller s db).isSome = true)
    (hvalid : hasValidAccess now caller.id s db = true) :
    ShowEnd cfg T caller s now db ↔ LatestEndsLast now caller.id s db := by
  constructor
  · exact fun h => latestEndsLast_of_detail hsigned hserver hvalid h.detail
  · intro h
    refine ⟨lasts_accessEnd hvalid, fun rows hperm => ?_, fun rows hperm => ?_⟩
    · rw [dashboardShows_eq hsigned hserver, accessEnd_perm (hperm.filter _)]
      rfl
    · rw [detailShows_eq hsigned hserver, latestAccess_end hvalid h hperm]

/-- Access until 100, then until 50. -/
def extended : Db := { Shell.shellDb with
  accessRequests := (Table.empty.insert
    ⟨1, 1, 1, .approved, [], true, false, false, 0, some 0, some 100, some 2⟩).insert
      ⟨2, 1, 1, .approved, [], true, false, false, 1, some 1, some 50, some 2⟩ }

/-- The page of the server shows 50. -/
theorem earlier_request_ends_later : ¬ ∀ (cfg : Settings) (T : CaseTable) (caller : Caller)
    (s : ServerId) (now : Instant) (db : Db), (signedIn caller db).isSome = true →
      (getServerOr404 caller s db).isSome = true → hasValidAccess now caller.id s db = true →
        ShowEnd cfg T caller s now db := by
  intro h
  have hshow := h Keys.workingEnv.cfg .keep Shell.shellCaller 1 10 extended (by decide) (by decide)
    (by decide)
  exact absurd (hshow.detail _ (List.Perm.refl _)) (by decide)

/-- Access until 50, then until 100. -/
def prolonged : Db := { Shell.shellDb with
  accessRequests := (Table.empty.insert
    ⟨1, 1, 1, .approved, [], true, false, false, 0, some 0, some 50, some 2⟩).insert
      ⟨2, 1, 1, .approved, [], true, false, false, 1, some 1, some 100, some 2⟩ }

theorem showEnd_prolonged : ShowEnd Keys.workingEnv.cfg .keep Shell.shellCaller 1 10 prolonged := by
  refine (showEnd_iff Keys.workingEnv.cfg .keep Shell.shellCaller 1 10 prolonged (by decide) (by decide)
    (by decide)).mpr ?_
  unfold LatestEndsLast
  decide

end Keywarden.AccessExpiry
