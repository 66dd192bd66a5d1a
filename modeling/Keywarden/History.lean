import Keywarden.Ownership

/-!
# What becomes of keys and requests

A key or a request, once there, stays, and most of its columns are never written again.
Of the others it is said what they can come to hold together: a key is active as long as
it has no time of revocation, a request is pending as long as it has no time of decision,
and what was decided once is never pending again.
-/
namespace Keywarden.History

open Rows Transitions Keys Erasure Authorization ErasureRun Writes Ownership

/-- The columns of a key that nothing writes a second time. -/
def frozenKey (k : SSHKey) : SSHKey := { k with name := [], isActive := false, revokedAt := none }

def frozenRequest (r : AccessRequest) : AccessRequest := { r with
  status := .pending, reason := [], decidedAt := none, expiresAt := none, decidedBy := none }

theorem id_of_frozenKey {k k' : SSHKey} (h : frozenKey k' = frozenKey k) : k'.id = k.id := by
  have hid := congrArg SSHKey.id h
  exact hid

theorem id_of_frozenRequest {r r' : AccessRequest} (h : frozenRequest r' = frozenRequest r) :
    r'.id = r.id := by
  have hid := congrArg AccessRequest.id h
  exact hid

/-! ## The columns that stay -/

section Frozen

variable {A : UserId → Prop} {now : Instant} {db db' : Db}

/-- A new key is created at the time of the write. -/
theorem write_keys (h : Write A now db db') :
    Table.Extends frozenKey (fun k => k.createdAt = now) db.sshKeys db'.sshKeys := by
  cases h with
  | aside h =>
    cases h with
    | @insertKey key hcreated _ _ _ _ =>
      have hnew : Table.Extends frozenKey (fun k => k.createdAt = now) db.sshKeys
          (db.sshKeys.create fun id => { key with id := id }) :=
        Table.extends_create (fun _ => rfl) hcreated
      exact hnew
    | saveKey hkey hsaved _ =>
      obtain ⟨_, _, _, rfl⟩ := hsaved.frame
      exact Table.extends_save hkey rfl rfl
    | revokeKeys _ => exact Table.extends_update _ _ fun _ => rfl
    | _ => exact Table.Extends.refl _ _ _
  | _ => exact Table.Extends.refl _ _ _

/-- An aside leaves the requests alone. -/
theorem aside_requests (h : Aside A now db db') : db'.accessRequests = db.accessRequests := by
  cases h <;> rfl

theorem write_requests (h : Write A now db db') :
    Table.Extends frozenRequest (fun r => r.requestedAt = now) db.accessRequests
      db'.accessRequests := by
  cases h with
  | aside h =>
    rw [aside_requests h]
    exact Table.Extends.refl _ _ _
  | insertRequest hid hr hrequested _ _ _ _ => exact Table.extends_create hid (hr ▸ hrequested)
  | saveRequest hrow hsaved _ =>
    obtain ⟨_, _, _, _, rfl⟩ := hsaved.frame
    exact Table.extends_save hrow rfl rfl
  | expireRequest _ _ _ => exact Table.extends_update _ _ fun _ => rfl
  | redactRequests _ => exact Table.extends_update _ _ fun _ => rfl
  | revokeRequests _ _ => exact Table.extends_update _ _ fun _ => rfl
  | _ => exact Table.Extends.refl _ _ _

theorem chain_keys (h : Chain A now db db') :
    Table.Extends frozenKey (fun k => k.createdAt = now) db.sshKeys db'.sshKeys := by
  induction h with
  | refl => exact Table.Extends.refl _ _ _
  | tail _ hw ih => exact ih.trans (write_keys hw)

theorem chain_requests (h : Chain A now db db') :
    Table.Extends frozenRequest (fun r => r.requestedAt = now) db.accessRequests
      db'.accessRequests := by
  induction h with
  | refl => exact Table.Extends.refl _ _ _
  | tail _ hw ih => exact ih.trans (write_requests hw)

end Frozen

/-! ## The columns that change -/

/-- What the columns of one key or of one request hold together. -/
structure Lawful (db : Db) : Prop where
  revoked : ∀ k ∈ db.sshKeys, k.isActive = true ↔ k.revokedAt = none
  unique : ∀ k ∈ db.sshKeys, ∀ k' ∈ db.sshKeys, k.user = k'.user → k.fingerprint = k'.fingerprint →
    k = k'
  decided : ∀ r ∈ db.accessRequests, r.status = .pending ↔ r.decidedAt = none
  decider : ∀ r ∈ db.accessRequests, r.decidedBy ≠ none →
    r.status ∈ [Status.approved, .denied, .revoked, .cancelled]

/-- A request was decided and stays decided. -/
def StaysDecided (t t' : Table AccessRequest) : Prop :=
  ∀ r ∈ t, r.status ≠ .pending → ∀ r' ∈ t', r'.id = r.id → r'.status ≠ .pending

section Columns

variable {A : UserId → Prop} {now : Instant} {db db' : Db}

theorem Lawful.of_eq (h : Lawful db) (hk : db'.sshKeys = db.sshKeys)
    (hr : db'.accessRequests = db.accessRequests) : Lawful db' :=
  ⟨hk ▸ h.revoked, hk ▸ h.unique, hr ▸ h.decided, hr ▸ h.decider⟩

/-- A write to the keys that keeps users and fingerprints. -/
theorem Lawful.keys {t : Table SSHKey} (h : Lawful db)
    (hrevoked : ∀ k ∈ t, k.isActive = true ↔ k.revokedAt = none)
    (hext : Table.Extends frozenKey (fun _ => False) db.sshKeys t) :
    Lawful { db with sshKeys := t } := by
  refine ⟨hrevoked, fun k hk k' hk' hu hf => ?_, h.decided, h.decider⟩
  obtain ⟨o, ho, heq⟩ := (hext.origin k hk).resolve_right id
  obtain ⟨o', ho', heq'⟩ := (hext.origin k' hk').resolve_right id
  simp only [frozenKey, SSHKey.mk.injEq] at heq heq'
  have hoo : o = o' := h.unique o ho o' ho' (by rw [heq.2.1, heq'.2.1, hu])
    (by rw [heq.2.2.2.2.2.1, heq'.2.2.2.2.2.1, hf])
  exact Table.eq_of_key _ hk hk' (by
    show k.id = k'.id
    rw [← heq.1, ← heq'.1, hoo])

theorem Lawful.requests {t : Table AccessRequest} (h : Lawful db)
    (hrow : ∀ r ∈ t, r ∈ db.accessRequests ∨ ((r.status = .pending ↔ r.decidedAt = none) ∧
      (r.decidedBy ≠ none → r.status ∈ [Status.approved, .denied, .revoked, .cancelled]))) :
    Lawful { db with accessRequests := t } :=
  ⟨h.revoked, h.unique, fun r hr => (hrow r hr).elim (h.decided r) And.left,
    fun r hr => (hrow r hr).elim (h.decider r) And.right⟩

theorem mem_decisions {s : Status} (h : s ∈ [Status.approved, .denied, .revoked, .cancelled]) :
    s ≠ .pending := by
  rintro rfl
  simp at h

theorem aside_lawful (h : Aside A now db db') (hl : Lawful db) : Lawful db' := by
  cases h with
  | @insertKey key _ hactive hrevoked hunique _ =>
    have hmem : ∀ k, k ∈ db.sshKeys.create (fun id => { key with id := id }) ↔
        k ∈ db.sshKeys ∨ k = { key with id := db.sshKeys.fresh } :=
      Table.mem_create _ _ fun _ => rfl
    refine ⟨fun k hk => ?_, fun k hk k' hk' hu hf => ?_, hl.decided, hl.decider⟩
    · obtain hk | rfl := (hmem k).mp hk
      · exact hl.revoked k hk
      · exact ⟨fun _ => hrevoked, fun _ => hactive⟩
    · obtain hk | rfl := (hmem k).mp hk
      · obtain hk' | rfl := (hmem k').mp hk'
        · exact hl.unique k hk k' hk' hu hf
        · exact absurd hf (hunique k hk hu)
      · obtain hk' | rfl := (hmem k').mp hk'
        · exact absurd hf.symm (hunique k' hk' hu.symm)
        · rfl
  | @saveKey key key' hkey hsaved _ =>
    refine hl.keys (fun k hk => ?_) ?_
    · obtain ⟨rfl, _⟩ | ⟨hk, _⟩ := (Table.mem_save _ _ _).mp hk
      · obtain ⟨hact, hrev⟩ | ⟨hact, hrev⟩ | ⟨hact, hrev⟩ := hsaved.state
        · rw [hact, hrev]
          exact hl.revoked key hkey
        · simp [hact, hrev]
        · simp [hact, hrev]
      · exact hl.revoked k hk
    · obtain ⟨_, _, _, rfl⟩ := hsaved.frame
      exact Table.extends_save hkey rfl rfl
  | revokeKeys _ =>
    refine hl.keys (fun k hk => ?_) (Table.extends_update _ _ fun _ => rfl)
    obtain ⟨o, ho, rfl⟩ := (Table.mem_update _ _ _ _).mp hk
    split
    · simp [revokedKey]
    · exact hl.revoked o ho
  | _ => exact hl.of_eq rfl rfl

theorem write_lawful (h : Write A now db db') (hl : Lawful db) : Lawful db' := by
  cases h with
  | aside h => exact aside_lawful h hl
  | @insertRequest mk hid r hr _ hstatus hdecidedAt hdecidedBy _ =>
    have hrows : Lawful { db with accessRequests := db.accessRequests.create mk } := by
      refine hl.requests fun q hq => ?_
      obtain hq | rfl := (Table.mem_create _ _ hid q).mp hq
      · exact .inl hq
      · rw [hr]
        exact .inr ⟨by simp [hstatus, hdecidedAt], fun h => absurd hdecidedBy h⟩
    exact hrows.of_eq rfl rfl
  | @saveRequest row r hrow hsaved _ =>
    refine hl.requests fun q hq => ?_
    obtain ⟨rfl, _⟩ | ⟨hq, _⟩ := (Table.mem_save _ _ _).mp hq
    · obtain ⟨hstatus, hat, hby⟩ | ⟨_, hat, hstatus⟩ | ⟨_, hstatus, hat, hby⟩ := hsaved.decision
      · rw [hstatus, hat, hby]
        exact .inr ⟨hl.decided row hrow, hl.decider row hrow⟩
      · exact .inr ⟨by simp [mem_decisions hstatus, hat], fun _ => hstatus⟩
      · exact .inr ⟨by simp [hstatus, hat], fun h => absurd hby h⟩
    · exact .inl hq
  | expireRequest _ _ _ =>
    refine hl.requests fun q hq => ?_
    obtain ⟨o, ho, rfl⟩ := (Table.mem_update _ _ _ _).mp hq
    split
    · exact .inr ⟨by simp [Access.markExpired], fun h => absurd rfl h⟩
    · exact .inl ho
  | redactRequests _ =>
    refine hl.requests fun q hq => ?_
    obtain ⟨o, ho, rfl⟩ := (Table.mem_update _ _ _ _).mp hq
    split
    · exact .inr ⟨hl.decided o ho, hl.decider o ho⟩
    · exact .inl ho
  | revokeRequests _ _ =>
    refine hl.requests fun q hq => ?_
    obtain ⟨o, ho, rfl⟩ := (Table.mem_update _ _ _ _).mp hq
    split
    · exact .inr ⟨by simp [revokedRequest], fun _ => by simp [revokedRequest]⟩
    · exact .inl ho
  | _ => exact hl.of_eq rfl rfl

/-- Nothing makes a request pending that was decided. -/
theorem write_staysDecided (h : Write A now db db') :
    StaysDecided db.accessRequests db'.accessRequests := by
  have hsame : ∀ r ∈ db.accessRequests, r.status ≠ .pending → ∀ r' ∈ db.accessRequests,
      r'.id = r.id → r'.status ≠ .pending := by
    intro r hr hs r' hr' hid
    rwa [Table.eq_of_key _ hr' hr hid]
  intro r hr hs r' hr' hid
  cases h with
  | aside h => exact hsame r hr hs r' (aside_requests h ▸ hr') hid
  | @insertRequest mk hmk q hq _ _ _ _ _ =>
    obtain hr' | rfl := (Table.mem_create _ _ hmk r').mp hr'
    · exact hsame r hr hs r' hr' hid
    · have hlt : r.id < db.accessRequests.fresh := Table.key_lt_fresh _ hr
      rw [← hid, hmk] at hlt
      exact absurd hlt (Nat.lt_irrefl _)
  | @saveRequest row q hrow hsaved _ =>
    obtain ⟨rfl, _⟩ | ⟨hr', _⟩ := (Table.mem_save _ _ _).mp hr'
    · obtain ⟨_, _, _, _, hframe⟩ := hsaved.frame
      have hrr : r = row := Table.eq_of_key _ hr hrow (hid.symm.trans (by rw [hframe]; rfl))
      obtain ⟨hstatus, _⟩ | ⟨_, _, hstatus⟩ | ⟨_, hstatus, _⟩ := hsaved.decision
      · rw [hstatus, ← hrr]
        exact hs
      · exact mem_decisions hstatus
      · simp [hstatus]
    · exact hsame r hr hs r' hr' hid
  | expireRequest _ _ _ =>
    obtain ⟨o, ho, rfl⟩ := (Table.mem_update _ _ _ _).mp hr'
    split
    · simp [Access.markExpired]
    · next hno =>
      rw [if_neg hno] at hid
      exact hsame r hr hs o ho hid
  | redactRequests _ =>
    obtain ⟨o, ho, rfl⟩ := (Table.mem_update _ _ _ _).mp hr'
    have hoid : o.id = r.id := by
      rw [← hid]
      split <;> rfl
    have hstatus := hsame r hr hs o ho hoid
    split
    · exact hstatus
    · exact hstatus
  | revokeRequests _ _ =>
    obtain ⟨o, ho, rfl⟩ := (Table.mem_update _ _ _ _).mp hr'
    split
    · simp [revokedRequest]
    · next hno =>
      rw [if_neg hno] at hid
      exact hsame r hr hs o ho hid
  | _ => exact hsame r hr hs r' hr' hid

end Columns

/-! ## Runs -/

/-- What is still true of the records of `db` in a later database. -/
structure After (db db' : Db) : Prop where
  keys : ∀ k ∈ db.sshKeys, ∃ k' ∈ db'.sshKeys, frozenKey k' = frozenKey k
  requests : ∀ r ∈ db.accessRequests, ∃ r' ∈ db'.accessRequests, frozenRequest r' = frozenRequest r
  decided : StaysDecided db.accessRequests db'.accessRequests

theorem After.refl (db : Db) : After db db :=
  ⟨fun k hk => ⟨k, hk, rfl⟩, fun r hr => ⟨r, hr, rfl⟩, fun r hr hs r' hr' hid => by
    rwa [Table.eq_of_key _ hr' hr hid]⟩

theorem After.trans {a b c : Db} (hab : After a b) (hbc : After b c) : After a c := by
  refine ⟨fun k hk => ?_, fun r hr => ?_, fun r hr hs r'' hr'' hid => ?_⟩
  · obtain ⟨k', hk', heq⟩ := hab.keys k hk
    obtain ⟨k'', hk'', heq'⟩ := hbc.keys k' hk'
    exact ⟨k'', hk'', heq'.trans heq⟩
  · obtain ⟨r', hr', heq⟩ := hab.requests r hr
    obtain ⟨r'', hr'', heq'⟩ := hbc.requests r' hr'
    exact ⟨r'', hr'', heq'.trans heq⟩
  · obtain ⟨r', hr', heq⟩ := hab.requests r hr
    exact hbc.decided r' hr' (hab.decided r hr hs r' hr' (id_of_frozenRequest heq)) r'' hr''
      (hid.trans (id_of_frozenRequest heq).symm)

theorem chain_after {A : UserId → Prop} {now : Instant} {db db' : Db} (h : Chain A now db db') :
    After db db' := by
  induction h with
  | refl => exact After.refl _
  | tail _ hw ih =>
    exact ih.trans ⟨(write_keys hw).kept, (write_requests hw).kept, write_staysDecided hw⟩

/-- In every state of a site the columns of each key and of each request agree with one
another; and whatever happens then, none of them is lost, the columns that say what it is
stay, and a request that was decided is never pending again. -/
theorem records_stay {start : Site} (hstart : Fresh start) (before after : List Event) :
    Lawful (run step start before).toDb ∧
      After (run step start before).toDb (run step start (before ++ after)).toDb := by
  constructor
  · refine run_writes (fun _ _ _ _ => write_lawful) ⟨?_, ?_, ?_, ?_⟩ before
    · exact fun k hk => absurd hk (hstart.keys k)
    · exact fun k hk => absurd hk (hstart.keys k)
    · exact fun r hr => absurd hr (hstart.requests r)
    · exact fun r hr => absurd hr (hstart.requests r)
  · rw [run_append]
    exact run_preserves (I := fun site : Site => After (run step start before).toDb site.toDb)
      (fun site e h => h.trans (chain_after (step_chain site e))) (After.refl _) after

theorem household_records : Lawful (run step household aliceAdds).toDb ∧
    After (run step household aliceAdds).toDb
      (run step household (aliceAdds ++ [.keys ⟨workingEnv, .deleteKey aliceCaller 1⟩])).toDb :=
  records_stay household_fresh aliceAdds _

end Keywarden.History
