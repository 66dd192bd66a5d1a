import Keywarden.AuditMatching
import Keywarden.ReadThrough

/-!
# The cache of event types among the threads of a process

`get_event_types_for_kind` and `clear_event_type_cache` in `apps/audit/matching.py`, one
step of a thread at a time: a call enters, reads the clock, looks its kind up, queries the
catalog and stores what it got; the signals that `AuditConfig.ready` connects clear the
cache on a save or a deletion, which commits before that or, inside of a transaction,
afterwards. Other processes commit as well.
-/
namespace Keywarden.CatalogCache

open Rows Transitions AuditMatching
open ReadThrough (Event boot)

/-- `list(AuditEventType.objects.filter(kind=kind).order_by("key"))`. -/
def eventTypesOf (U : Unicode) (kind : Kind) (stored : Table EventType) : List EventType :=
  (stored.rows.filter (·.kind = kind)).insertionSort fun a b => U.collates a.key b.key = true

abbrev Process := ReadThrough.State Kind (Table EventType) (List EventType)

def policy (U : Unicode) : ReadThrough.Policy Kind (Table EventType) (List EventType) where
  read := eventTypesOf U
  ttl := cacheTtl

def step (U : Unicode) : Process → Event Kind (Table EventType) → Process :=
  ReadThrough.step (policy U)

/-- The steps of a call, taken one after the other, are the function. -/
theorem call_alone (U : Unicode) {s : Process} {thread : Nat} (kind : Kind)
    (hidle : s.threads thread = .idle) :
    run (step U) s (ReadThrough.steps thread kind) =
      { s.finish thread ⟨kind, s.now, s.floor⟩
          (getEventTypesForKind U s.now kind s.source s.cache).1 with
        cache := (getEventTypesForKind U s.now kind s.source s.cache).2 } := by
  unfold getEventTypesForKind
  cases hcache : s.cache kind with
  | none =>
    refine ReadThrough.run_miss hidle fun since value hk => ?_
    rw [hcache] at hk
    cases hk
  | some entry =>
    obtain ⟨since, eventTypes⟩ := entry
    simp only
    split
    · next hkept => exact ReadThrough.run_hit hidle hcache hkept
    · next hkept =>
      refine ReadThrough.run_miss hidle fun since' value hk => ?_
      rw [hcache] at hk
      cases hk
      exact hkept

def apiRequest : EventType := { id := 1, key := "api_request".toList }

def oneType : Table EventType := Table.empty.insert apiRequest

/-- A call, the first event type is saved, and another call. -/
def orderly : List (Event Kind (Table EventType)) :=
  ReadThrough.steps 0 .api ++ [.commit (some 0) oneType, .invalidate (some 0)] ++
    ReadThrough.steps 1 .api

/-- Every list that a call returns was the committed one at some time no longer than 15
seconds before the call began. -/
theorem recent (U : Unicode) (now : Monotonic) (stored : Table EventType)
    (events : List (Event Kind (Table EventType))) :
    ∀ r ∈ (run (step U) (boot now stored) events).returned, ∃ bs, bs <+: events ∧
      r.1.began ≤ (run (step U) (boot now stored) bs).now + cacheTtl ∧
      r.2 = eventTypesOf U r.1.key (run (step U) (boot now stored) bs).source := by
  intro r hr
  obtain ⟨_, ⟨bs, hbs, rfl⟩, hbegan, hvalue⟩ :=
    ReadThrough.returned_recent (policy U) now stored events r hr
  exact ⟨bs, hbs, hbegan, hvalue⟩

theorem recent_orderly : ∃ bs, bs <+: orderly ∧
    0 ≤ (run (step .ascii) (boot 0 .empty) bs).now + cacheTtl ∧
    [apiRequest] = eventTypesOf .ascii .api (run (step .ascii) (boot 0 .empty) bs).source :=
  recent .ascii 0 .empty orderly (⟨.api, 0, 1⟩, [apiRequest]) (by decide)

/-- As long as no thread stores a list from before a save that has settled since, and no
such list is cached when a save commits that has cleared before, every list that a call
returns was the committed one at the last commit that had settled when the call began,
or later. -/
theorem settled (U : Unicode) (now : Monotonic) (stored : Table EventType)
    (events : List (Event Kind (Table EventType)))
    (h : Along (step U) (ReadThrough.Safe (policy U)) (boot now stored) events) :
    ∀ r ∈ (run (step U) (boot now stored) events).returned, ∃ bs, bs <+: events ∧
      r.1.floor ≤ (run (step U) (boot now stored) bs).commits ∧
      r.2 = eventTypesOf U r.1.key (run (step U) (boot now stored) bs).source := by
  intro r hr
  obtain ⟨_, ⟨bs, hbs, rfl⟩, hfloor, hvalue⟩ :=
    ReadThrough.returned_settled (policy U) now stored events h r hr
  exact ⟨bs, hbs, hfloor, hvalue⟩

theorem orderly_safe : Along (step .ascii) (ReadThrough.Safe (policy .ascii)) (boot 0 .empty) orderly := by
  refine ⟨trivial, trivial, trivial, trivial, ?_, ?_, trivial, trivial, trivial, trivial, trivial, ?_,
    trivial⟩
  · intro call now value version hi
    cases hi
    exact .inl (by decide)
  · intro _ hinv
    cases hinv
  · intro call now value version hi
    cases hi
    exact .inl (by decide)

theorem settled_orderly : ∃ bs, bs <+: orderly ∧
    1 ≤ (run (step .ascii) (boot 0 .empty) bs).commits ∧
    [apiRequest] = eventTypesOf .ascii .api (run (step .ascii) (boot 0 .empty) bs).source :=
  settled .ascii 0 .empty orderly orderly_safe (⟨.api, 0, 1⟩, [apiRequest]) (by decide)

/-! ## A list that is stored after the cache was cleared -/

/-- Thread 0 has queried before the first event type is saved and stores afterwards. -/
def overtaken : List (Event Kind (Table EventType)) :=
  [.enter 0 .api, .readClock 0, .lookup 0, .load 0, .commit (some 0) oneType, .invalidate (some 0),
    .store 0, .enter 1 .api, .readClock 1, .lookup 1]

/-- A call that begins after the save returns the catalog without it. -/
theorem cleared_in_vain :
    ¬ ∀ (U : Unicode) (now : Monotonic) (stored : Table EventType)
      (events : List (Event Kind (Table EventType))),
      ∀ r ∈ (run (step U) (boot now stored) events).returned, ∃ bs, bs <+: events ∧
        r.1.floor ≤ (run (step U) (boot now stored) bs).commits ∧
        r.2 = eventTypesOf U r.1.key (run (step U) (boot now stored) bs).source := by
  intro h
  have hcommitted : Always (step .ascii)
      (fun s => 1 ≤ s.commits → eventTypesOf .ascii .api s.source ≠ [])
      (boot 0 .empty : Process) overtaken := by decide
  have hreturned : (⟨.api, 0, 1⟩, []) ∈
      (run (step .ascii) (boot 0 .empty : Process) overtaken).returned := by decide
  obtain ⟨bs, hbs, hfloor, hvalue⟩ := h .ascii 0 .empty overtaken _ hreturned
  exact (always_iff _ _ _ _).mp hcommitted bs hbs hfloor hvalue.symm

end Keywarden.CatalogCache
