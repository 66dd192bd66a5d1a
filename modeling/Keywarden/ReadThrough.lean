import Mathlib.Logic.Function.Basic
import Keywarden.Transitions

/-!
# A read-through cache without locks

Threads look a key up in a cache that they share, load a missing value from a source
and store it, each of these steps on its own; entries count for `ttl` ticks of the clock
from the time that was read before the lookup. Others commit new states of the source,
and a writer invalidates the whole cache, before or after its own commit. Which thread
takes the next step is up to the schedule.
-/
namespace ReadThrough

open Transitions

variable {κ σ β : Type}

/-- How a value is loaded, and how long it is kept. -/
structure Policy (κ σ β : Type) where
  read : κ → σ → β
  ttl : Nat

/-- A call: what it asks for, when it began, and the commits that had settled then. -/
structure Call (κ : Type) where
  key : κ
  began : Nat
  floor : Nat
  deriving DecidableEq

/-- How far a thread is with its call. A loaded value is noted with the number of
commits before it was loaded. -/
inductive Stage (κ β : Type) where
  | idle
  | entered : Call κ → Stage κ β
  | timed : Call κ → Nat → Stage κ β
  | missed : Call κ → Nat → Stage κ β
  | loaded : Call κ → Nat → β → Nat → Stage κ β

/-- A write of this process: the commit that it made, and whether it has invalidated. -/
structure Write where
  committed : Option Nat := none
  invalidated : Bool := false

structure State (κ σ β : Type) where
  now : Nat
  source : σ
  /-- How many commits there have been. -/
  commits : Nat
  cache : κ → Option (Nat × β)
  threads : Nat → Stage κ β
  writes : Nat → Write
  /-- The last commit that belongs to a write which has invalidated as well. -/
  floor : Nat
  returned : List (Call κ × β)

/-- A commit and an invalidation belong to a write of this process or to none. -/
inductive Event (κ σ : Type) where
  | tick : Nat → Event κ σ
  | enter : Nat → κ → Event κ σ
  | readClock : Nat → Event κ σ
  | lookup : Nat → Event κ σ
  | load : Nat → Event κ σ
  | store : Nat → Event κ σ
  | commit : Option Nat → σ → Event κ σ
  | invalidate : Option Nat → Event κ σ

def State.setStage (s : State κ σ β) (i : Nat) (stage : Stage κ β) : State κ σ β :=
  { s with threads := Function.update s.threads i stage }

def State.finish (s : State κ σ β) (i : Nat) (call : Call κ) (value : β) : State κ σ β :=
  { s.setStage i .idle with returned := s.returned ++ [(call, value)] }

@[simp] theorem setStage_self (s : State κ σ β) (i : Nat) (stage : Stage κ β) :
    (s.setStage i stage).threads i = stage := by
  simp only [State.setStage, Function.update_self]

@[simp] theorem setStage_setStage (s : State κ σ β) (i : Nat) (stage stage' : Stage κ β) :
    (s.setStage i stage).setStage i stage' = s.setStage i stage' := by
  simp only [State.setStage, Function.update_idem]

@[simp] theorem setStage_cache (s : State κ σ β) (i : Nat) (stage : Stage κ β) :
    (s.setStage i stage).cache = s.cache := rfl

@[simp] theorem finish_self (s : State κ σ β) (i : Nat) (call : Call κ) (value : β) :
    (s.finish i call value).threads i = .idle := setStage_self s i .idle

@[simp] theorem finish_setStage (s : State κ σ β) (i : Nat) (stage : Stage κ β) (call : Call κ)
    (value : β) : (s.setStage i stage).finish i call value = s.finish i call value := by
  simp only [State.finish, setStage_setStage]
  rfl

/-- A write commits once; it has settled then if it has invalidated before. -/
def State.commitWrite (s : State κ σ β) (w : Nat) (source : σ) : State κ σ β :=
  match (s.writes w).committed with
  | some _ => s
  | none =>
    { s with
      source := source
      commits := s.commits + 1
      writes := Function.update s.writes w { s.writes w with committed := some (s.commits + 1) }
      floor := if (s.writes w).invalidated then s.commits + 1 else s.floor }

/-- An invalidation empties the cache; the write has settled if it has committed before. -/
def State.invalidateWrite (s : State κ σ β) (w : Nat) : State κ σ β :=
  { s with
    cache := fun _ => none
    writes := Function.update s.writes w { s.writes w with invalidated := true }
    floor := max s.floor ((s.writes w).committed.getD 0) }

def step [DecidableEq κ] (P : Policy κ σ β) (s : State κ σ β) : Event κ σ → State κ σ β
  | .tick d => { s with now := s.now + d }
  | .enter i key =>
    match s.threads i with
    | .idle => s.setStage i (.entered ⟨key, s.now, s.floor⟩)
    | _ => s
  | .readClock i =>
    match s.threads i with
    | .entered call => s.setStage i (.timed call s.now)
    | _ => s
  | .lookup i =>
    match s.threads i with
    | .timed call now =>
      match s.cache call.key with
      | some (since, value) =>
        if now - since < P.ttl then s.finish i call value else s.setStage i (.missed call now)
      | none => s.setStage i (.missed call now)
    | _ => s
  | .load i =>
    match s.threads i with
    | .missed call now =>
      s.setStage i (.loaded call now (P.read call.key s.source) s.commits)
    | _ => s
  | .store i =>
    match s.threads i with
    | .loaded call now value _ =>
      { s.finish i call value with cache := Function.update s.cache call.key (some (now, value)) }
    | _ => s
  | .commit none source => { s with source := source, commits := s.commits + 1 }
  | .commit (some w) source => s.commitWrite w source
  | .invalidate none => { s with cache := fun _ => none }
  | .invalidate (some w) => s.invalidateWrite w

/-- Nothing is cached and no call is under way. -/
def boot (now : Nat) (source : σ) : State κ σ β where
  now := now
  source := source
  commits := 0
  cache _ := none
  threads _ := .idle
  writes _ := {}
  floor := 0
  returned := []

/-! ## A call that nothing comes between -/

/-- The steps of a call; after a hit there is nothing to load or to store. -/
def steps (i : Nat) (key : κ) : List (Event κ σ) :=
  [.enter i key, .readClock i, .lookup i, .load i, .store i]

section Alone

variable [DecidableEq κ] {P : Policy κ σ β} {s : State κ σ β} {i : Nat} {key : κ}

theorem run_lookup (hidle : s.threads i = .idle) :
    run (step P) s (steps i key) = run (step P)
      (s.setStage i (.timed ⟨key, s.now, s.floor⟩ s.now)) [.lookup i, .load i, .store i] := by
  simp only [steps, run_cons, step, hidle, setStage_self, setStage_setStage]
  rfl

theorem run_hit (hidle : s.threads i = .idle) {since : Nat} {value : β}
    (hcache : s.cache key = some (since, value)) (hkept : s.now - since < P.ttl) :
    run (step P) s (steps i key) = s.finish i ⟨key, s.now, s.floor⟩ value := by
  have hlookup : step P (s.setStage i (.timed ⟨key, s.now, s.floor⟩ s.now)) (.lookup i) =
      s.finish i ⟨key, s.now, s.floor⟩ value := by
    simp only [step, setStage_self, setStage_cache, hcache, if_pos hkept, finish_setStage]
  rw [run_lookup hidle]
  simp only [run_cons, run_nil, hlookup]
  simp only [step, finish_self]

theorem run_miss (hidle : s.threads i = .idle)
    (hcache : ∀ since value, s.cache key = some (since, value) → ¬ s.now - since < P.ttl) :
    run (step P) s (steps i key) =
      { s.finish i ⟨key, s.now, s.floor⟩ (P.read key s.source) with
        cache := Function.update s.cache key (some (s.now, P.read key s.source)) } := by
  have hlookup : step P (s.setStage i (.timed ⟨key, s.now, s.floor⟩ s.now)) (.lookup i) =
      s.setStage i (.missed ⟨key, s.now, s.floor⟩ s.now) := by
    simp only [step, setStage_self, setStage_cache, setStage_setStage]
    split
    · next since value hk => rw [if_neg (hcache since value hk)]
    · rfl
  rw [run_lookup hidle]
  simp only [run_cons, run_nil, hlookup]
  simp only [step, setStage_self, setStage_setStage, finish_setStage]
  rfl

end Alone

/-! ## What one event does -/

/-- The moves there are; an event that is not possible in a state stays there. -/
inductive Move [DecidableEq κ] (P : Policy κ σ β) (s : State κ σ β) :
    Event κ σ → State κ σ β → Prop where
  | stay (e : Event κ σ) : Move P s e s
  | tick (d : Nat) : Move P s (.tick d) { s with now := s.now + d }
  | enter {i : Nat} (key : κ) (hi : s.threads i = .idle) :
      Move P s (.enter i key) (s.setStage i (.entered ⟨key, s.now, s.floor⟩))
  | readClock {i : Nat} {call : Call κ} (hi : s.threads i = .entered call) :
      Move P s (.readClock i) (s.setStage i (.timed call s.now))
  | hit {i : Nat} {call : Call κ} {now since : Nat} {value : β} (hi : s.threads i = .timed call now)
      (hcache : s.cache call.key = some (since, value)) (hkept : now - since < P.ttl) :
      Move P s (.lookup i) (s.finish i call value)
  | miss {i : Nat} {call : Call κ} {now : Nat} (hi : s.threads i = .timed call now) :
      Move P s (.lookup i) (s.setStage i (.missed call now))
  | load {i : Nat} {call : Call κ} {now : Nat} (hi : s.threads i = .missed call now) :
      Move P s (.load i) (s.setStage i (.loaded call now (P.read call.key s.source) s.commits))
  | store {i : Nat} {call : Call κ} {now version : Nat} {value : β}
      (hi : s.threads i = .loaded call now value version) :
      Move P s (.store i) { s.finish i call value with
        cache := Function.update s.cache call.key (some (now, value)) }
  | commit (source : σ) :
      Move P s (.commit none source) { s with source := source, commits := s.commits + 1 }
  | commitWrite (w : Nat) (source : σ) (hw : (s.writes w).committed = none) :
      Move P s (.commit (some w) source) (s.commitWrite w source)
  | invalidate : Move P s (.invalidate none) { s with cache := fun _ => none }
  | invalidateWrite (w : Nat) : Move P s (.invalidate (some w)) (s.invalidateWrite w)

theorem step_move [DecidableEq κ] (P : Policy κ σ β) (s : State κ σ β) (e : Event κ σ) :
    Move P s e (step P s e) := by
  cases e with
  | tick d => exact .tick d
  | enter i key =>
    simp only [step]
    split
    · next hi => exact .enter key hi
    · exact .stay _
  | readClock i =>
    simp only [step]
    split
    · next hi => exact .readClock hi
    · exact .stay _
  | lookup i =>
    simp only [step]
    split
    · next hi =>
      split
      · next hcache =>
        split
        · next hkept => exact .hit hi hcache hkept
        · exact .miss hi
      · exact .miss hi
    · exact .stay _
  | load i =>
    simp only [step]
    split
    · next hi => exact .load hi
    · exact .stay _
  | store i =>
    simp only [step]
    split
    · next hi => exact .store hi
    · exact .stay _
  | commit w source =>
    cases w with
    | none => exact .commit source
    | some w =>
      cases hw : (s.writes w).committed with
      | none => exact .commitWrite w source hw
      | some v =>
        have hstay : step P s (.commit (some w) source) = s := by
          simp only [step, State.commitWrite, hw]
        rw [hstay]
        exact .stay _
  | invalidate w =>
    cases w with
    | none => exact .invalidate
    | some w => exact .invalidateWrite w

theorem forall_setStage {Q : Stage κ β → Prop} {s : State κ σ β} (i : Nat) {stage : Stage κ β}
    (h : ∀ j, Q (s.threads j)) (hstage : Q stage) : ∀ j, Q ((s.setStage i stage).threads j) := by
  intro j
  by_cases hj : j = i
  · subst hj
    simpa [State.setStage] using hstage
  · simpa [State.setStage, Function.update_of_ne hj] using h j

theorem forall_returned {Q : Call κ × β → Prop} {s : State κ σ β} (i : Nat) {call : Call κ} {value : β}
    (h : ∀ r ∈ s.returned, Q r) (hr : Q (call, value)) : ∀ r ∈ (s.finish i call value).returned, Q r := by
  intro r hmem
  obtain hmem | hmem := List.mem_append.mp hmem
  · exact h r hmem
  · rw [List.mem_singleton.mp hmem]
    exact hr

theorem forall_stored [DecidableEq κ] {Q : κ → Nat → β → Prop} {s : State κ σ β} {key : κ} {now : Nat} {value : β}
    (h : ∀ k since v, s.cache k = some (since, v) → Q k since v) (hq : Q key now value) :
    ∀ k since v, Function.update s.cache key (some (now, value)) k = some (since, v) → Q k since v := by
  intro k since v hk
  by_cases hkey : k = key
  · subst hkey
    rw [Function.update_self] at hk
    cases hk
    exact hq
  · rw [Function.update_of_ne hkey] at hk
    exact h k since v hk

theorem forall_writes {Q : Nat → Prop} {s : State κ σ β} (w : Nat) {write : Write}
    (h : ∀ w v, (s.writes w).committed = some v → Q v) (hwrite : ∀ v, write.committed = some v → Q v) :
    ∀ w' v, (Function.update s.writes w write w').committed = some v → Q v := by
  intro w' v hv
  by_cases hw : w' = w
  · subst hw
    rw [Function.update_self] at hv
    exact hwrite v hv
  · rw [Function.update_of_ne hw] at hv
    exact h w' v hv

/-- The value of the key was the given one in a state of `H` that meets `Q`. -/
def Shown (P : Policy κ σ β) (H : State κ σ β → Prop) (key : κ) (Q : State κ σ β → Prop) (value : β) :
    Prop := ∃ q, H q ∧ Q q ∧ value = P.read key q.source

theorem Shown.weaken {P : Policy κ σ β} {H : State κ σ β → Prop} {key : κ}
    {Q Q' : State κ σ β → Prop} {value : β} (h : Shown P H key Q value) (hQ : ∀ q, Q q → Q' q) :
    Shown P H key Q' value := by
  obtain ⟨q, hq, hqQ, rfl⟩ := h
  exact ⟨q, hq, hQ q hqQ, rfl⟩

/-! ## How old a value can be -/

section Age

variable {P : Policy κ σ β} {H : State κ σ β → Prop}

/-- What is known of the times of a call at that time. -/
def DatedStage (P : Policy κ σ β) (H : State κ σ β → Prop) (clock : Nat) : Stage κ β → Prop
  | .idle => True
  | .entered call => call.began ≤ clock
  | .timed call now => call.began ≤ now ∧ now ≤ clock
  | .missed call now => call.began ≤ now ∧ now ≤ clock
  | .loaded call now value _ => call.began ≤ now ∧ Shown P H call.key (now ≤ ·.now) value

/-- No value is older than the time that stands with it. -/
structure Dated (P : Policy κ σ β) (H : State κ σ β → Prop) (s : State κ σ β) : Prop where
  entries : ∀ key since value, s.cache key = some (since, value) →
    Shown P H key (since ≤ ·.now) value
  stages : ∀ i, DatedStage P H s.now (s.threads i)
  returns : ∀ r ∈ s.returned, Shown P H r.1.key (r.1.began ≤ ·.now + P.ttl) r.2

theorem DatedStage.later {clock clock' : Nat} (hle : clock ≤ clock') {stage : Stage κ β}
    (h : DatedStage P H clock stage) : DatedStage P H clock' stage := by
  cases stage with
  | idle => trivial
  | entered call => exact Nat.le_trans h hle
  | timed call now => exact ⟨h.1, Nat.le_trans h.2 hle⟩
  | missed call now => exact ⟨h.1, Nat.le_trans h.2 hle⟩
  | loaded call now value version => exact h

theorem dated_boot (now : Nat) (source : σ) : Dated P H (boot now source : State κ σ β) :=
  ⟨fun _ _ _ h => (nomatch h), fun _ => trivial, fun _ h => (nomatch h)⟩

theorem dated_step [DecidableEq κ] {s : State κ σ β} (e : Event κ σ) (hs : H s) (h : Dated P H s) :
    Dated P H (step P s e) := by
  obtain ⟨hentries, hstages, hreturns⟩ := h
  have hmove := step_move P s e
  generalize step P s e = s' at hmove
  cases hmove with
  | stay => exact ⟨hentries, hstages, hreturns⟩
  | tick d => exact ⟨hentries, fun i => (hstages i).later (Nat.le_add_right _ _), hreturns⟩
  | @enter i key hi => exact ⟨hentries, forall_setStage i hstages (Nat.le_refl _), hreturns⟩
  | @readClock i call hi =>
    have hbegan := hstages i
    rw [hi] at hbegan
    exact ⟨hentries, forall_setStage i hstages ⟨hbegan, Nat.le_refl _⟩, hreturns⟩
  | @hit i call now since value hi hcache hkept =>
    have hnow := hstages i
    rw [hi] at hnow
    refine ⟨hentries, forall_setStage i hstages trivial, forall_returned i hreturns ?_⟩
    refine (hentries _ _ _ hcache).weaken fun q hq => ?_
    have hbegan : call.began ≤ now := hnow.1
    show call.began ≤ q.now + P.ttl
    omega
  | @miss i call now hi =>
    have hnow := hstages i
    rw [hi] at hnow
    exact ⟨hentries, forall_setStage i hstages hnow, hreturns⟩
  | @load i call now hi =>
    have hnow := hstages i
    rw [hi] at hnow
    exact ⟨hentries, forall_setStage i hstages ⟨hnow.1, s, hs, hnow.2, rfl⟩, hreturns⟩
  | @store i call now version value hi =>
    have hloaded := hstages i
    rw [hi] at hloaded
    refine ⟨forall_stored hentries hloaded.2, forall_setStage i hstages trivial,
      forall_returned i hreturns ?_⟩
    exact hloaded.2.weaken fun q hq =>
      Nat.le_trans hloaded.1 (Nat.le_trans hq (Nat.le_add_right _ _))
  | commit source => exact ⟨hentries, hstages, hreturns⟩
  | commitWrite w source hw =>
    simp only [State.commitWrite, hw]
    exact ⟨hentries, hstages, hreturns⟩
  | invalidate => exact ⟨fun _ _ _ hk => (nomatch hk), hstages, hreturns⟩
  | invalidateWrite w => exact ⟨fun _ _ _ hk => (nomatch hk), hstages, hreturns⟩

/-- Every value that is returned was the value of its key no longer than `ttl` before the
call began. -/
theorem returned_recent [DecidableEq κ] (P : Policy κ σ β) (now : Nat) (source : σ)
    (events : List (Event κ σ)) :
    ∀ r ∈ (run (step P) (boot now source) events).returned,
      Shown P (Passed (step P) (boot now source) events) r.1.key (r.1.began ≤ ·.now + P.ttl) r.2 := by
  let H := Passed (step P) (boot now source) events
  have hrun : Dated P H (run (step P) (boot now source) events) :=
    run_invariant (I := Dated P H) (fun _ e hdated hpassed => dated_step e hpassed.1 hdated)
      (dated_boot now source) (along_passed (step P) (boot now source) events)
  exact hrun.returns

end Age

/-! ## Values from before a write that has settled -/

section Invalidation

variable {P : Policy κ σ β} {H : State κ σ β → Prop}

/-- What is known of the commits that a call shows, up to that floor. -/
def SettledStage (P : Policy κ σ β) (H : State κ σ β → Prop) (floor : Nat) : Stage κ β → Prop
  | .idle => True
  | .entered call => call.floor ≤ floor
  | .timed call _ => call.floor ≤ floor
  | .missed call _ => call.floor ≤ floor
  | .loaded call _ value version =>
    call.floor ≤ version ∧ Shown P H call.key (version ≤ ·.commits) value

/-- Nothing that is cached, and nothing that is returned, has been overtaken by a write
that has settled. -/
structure Settled (P : Policy κ σ β) (H : State κ σ β → Prop) (s : State κ σ β) : Prop where
  floor_le : s.floor ≤ s.commits
  writes : ∀ w v, (s.writes w).committed = some v → v ≤ s.commits
  entries : ∀ key since value, s.cache key = some (since, value) →
    Shown P H key (s.floor ≤ ·.commits) value
  stages : ∀ i, SettledStage P H s.floor (s.threads i)
  returns : ∀ r ∈ s.returned, Shown P H r.1.key (r.1.floor ≤ ·.commits) r.2

/-- What a thread stores has been loaded since the last write that has settled, or is
still the value of its key; so is all that is cached when a write commits that has
invalidated before. -/
def Safe (P : Policy κ σ β) (s : State κ σ β) : Event κ σ → Prop
  | .store i => ∀ call now value version, s.threads i = .loaded call now value version →
      s.floor ≤ version ∨ value = P.read call.key s.source
  | .commit (some w) source => (s.writes w).committed = none → (s.writes w).invalidated = true →
      ∀ key since value, s.cache key = some (since, value) → value = P.read key source
  | _ => True

theorem SettledStage.raise {floor floor' : Nat} (hle : floor ≤ floor') {stage : Stage κ β}
    (h : SettledStage P H floor stage) : SettledStage P H floor' stage := by
  cases stage with
  | idle => trivial
  | entered call => exact Nat.le_trans h hle
  | timed call now => exact Nat.le_trans h hle
  | missed call now => exact Nat.le_trans h hle
  | loaded call now value version => exact h

theorem settled_boot (now : Nat) (source : σ) : Settled P H (boot now source : State κ σ β) :=
  ⟨Nat.le_refl _, fun _ _ h => (nomatch h), fun _ _ _ h => (nomatch h), fun _ => trivial,
    fun _ h => (nomatch h)⟩

/-- The commit of a write that has invalidated before settles it at once, with what is
cached then. -/
theorem settled_commitWrite {s : State κ σ β} {w : Nat} {source : σ}
    (hs' : H (s.commitWrite w source)) (hw : (s.writes w).committed = none)
    (hcached : (s.writes w).invalidated = true → ∀ key since value,
      s.cache key = some (since, value) → value = P.read key source)
    (h : Settled P H s) : Settled P H (s.commitWrite w source) := by
  obtain ⟨hfloor, hwrites, hentries, hstages, hreturns⟩ := h
  have hlater : ∀ w v, (s.writes w).committed = some v → v ≤ s.commits + 1 :=
    fun w v hv => Nat.le_succ_of_le (hwrites w v hv)
  have hown : ∀ v, some (s.commits + 1) = some v → v ≤ s.commits + 1 := by
    rintro v hv
    cases hv
    exact Nat.le_refl _
  simp only [State.commitWrite, hw] at hs' ⊢
  cases hinv : (s.writes w).invalidated with
  | false =>
    exact ⟨Nat.le_succ_of_le hfloor, forall_writes w hlater hown, hentries, hstages, hreturns⟩
  | true =>
    rw [hinv] at hs'
    refine ⟨Nat.le_refl _, forall_writes w hlater hown, ?_,
      fun i => (hstages i).raise (Nat.le_succ_of_le hfloor), hreturns⟩
    intro key since value hk
    exact ⟨_, hs', Nat.le_refl _, hcached hinv key since value hk⟩

theorem settled_invalidateWrite {s : State κ σ β} (w : Nat) (h : Settled P H s) :
    Settled P H (s.invalidateWrite w) := by
  obtain ⟨hfloor, hwrites, _, hstages, hreturns⟩ := h
  refine ⟨Nat.max_le.mpr ⟨hfloor, ?_⟩, forall_writes w hwrites fun v hv => hwrites w v hv,
    fun _ _ _ hk => (nomatch hk), fun i => (hstages i).raise (Nat.le_max_left _ _), hreturns⟩
  cases hcommitted : (s.writes w).committed with
  | none => exact Nat.zero_le _
  | some v => exact hwrites w v hcommitted

theorem settled_step [DecidableEq κ] {s : State κ σ β} (e : Event κ σ) (hs : H s)
    (hs' : H (step P s e)) (hsafe : Safe P s e) (h : Settled P H s) : Settled P H (step P s e) := by
  have ⟨hfloor, hwrites, hentries, hstages, hreturns⟩ := h
  have hmove := step_move P s e
  generalize step P s e = s' at hmove hs'
  cases hmove with
  | stay => exact h
  | tick d => exact ⟨hfloor, hwrites, hentries, hstages, hreturns⟩
  | @enter i key hi =>
    exact ⟨hfloor, hwrites, hentries, forall_setStage i hstages (Nat.le_refl _), hreturns⟩
  | @readClock i call hi =>
    have hcall := hstages i
    rw [hi] at hcall
    exact ⟨hfloor, hwrites, hentries, forall_setStage i hstages hcall, hreturns⟩
  | @hit i call now since value hi hcache hkept =>
    have hcall : SettledStage P H s.floor (.timed call now) := hi ▸ hstages i
    refine ⟨hfloor, hwrites, hentries, forall_setStage i hstages trivial, forall_returned i hreturns ?_⟩
    exact (hentries _ _ _ hcache).weaken fun q hq => Nat.le_trans hcall hq
  | @miss i call now hi =>
    have hcall := hstages i
    rw [hi] at hcall
    exact ⟨hfloor, hwrites, hentries, forall_setStage i hstages hcall, hreturns⟩
  | @load i call now hi =>
    have hcall : SettledStage P H s.floor (.missed call now) := hi ▸ hstages i
    refine ⟨hfloor, hwrites, hentries, forall_setStage i hstages ⟨?_, s, hs, Nat.le_refl _, rfl⟩, hreturns⟩
    exact Nat.le_trans hcall hfloor
  | @store i call now version value hi =>
    have hloaded : SettledStage P H s.floor (.loaded call now value version) := hi ▸ hstages i
    refine ⟨hfloor, hwrites, forall_stored hentries ?_, forall_setStage i hstages trivial,
      forall_returned i hreturns ?_⟩
    · obtain hle | hsame := hsafe call now value version hi
      · exact hloaded.2.weaken fun q hq => Nat.le_trans hle hq
      · exact ⟨s, hs, hfloor, hsame⟩
    · exact hloaded.2.weaken fun q hq => Nat.le_trans hloaded.1 hq
  | commit source =>
    exact ⟨Nat.le_succ_of_le hfloor, fun w v hv => Nat.le_succ_of_le (hwrites w v hv), hentries,
      hstages, hreturns⟩
  | commitWrite w source hw => exact settled_commitWrite hs' hw (hsafe hw) h
  | invalidate => exact ⟨hfloor, hwrites, fun _ _ _ hk => (nomatch hk), hstages, hreturns⟩
  | invalidateWrite w => exact settled_invalidateWrite w h

/-- In a run of safe events every value that is returned was the value of its key when
the last write had committed that had settled when the call began, or later. -/
theorem returned_settled [DecidableEq κ] (P : Policy κ σ β) (now : Nat) (source : σ)
    (events : List (Event κ σ)) (h : Along (step P) (Safe P) (boot now source) events) :
    ∀ r ∈ (run (step P) (boot now source) events).returned,
      Shown P (Passed (step P) (boot now source) events) r.1.key (r.1.floor ≤ ·.commits) r.2 := by
  let H := Passed (step P) (boot now source) events
  have hrun : Settled P H (run (step P) (boot now source) events) :=
    run_invariant (I := Settled P H)
      (fun _ e hsettled hevent => settled_step e hevent.1.1 hevent.1.2 hevent.2 hsettled)
      (settled_boot now source) (along_and (along_passed (step P) (boot now source) events) h)
  exact hrun.returns

end Invalidation

end ReadThrough
