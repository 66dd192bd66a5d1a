import Mathlib.Data.List.Forall2

/-!
# Runs of a step function

A system is a total step function: an event that cannot happen in a state leaves
that state as it is, so every schedule of events is a run. `Always` is a property
of every state a run passes through, `Along` a condition on the events taken
together with the states they are taken in.
-/
namespace Transitions

variable {σ α : Type}

def run (step : σ → α → σ) : σ → List α → σ
  | s, [] => s
  | s, a :: as => run step (step s a) as

@[simp] theorem run_nil (step : σ → α → σ) (s : σ) : run step s [] = s := rfl
@[simp] theorem run_cons (step : σ → α → σ) (s : σ) (a : α) (as : List α) :
    run step s (a :: as) = run step (step s a) as := rfl

theorem run_append (step : σ → α → σ) (s : σ) (as bs : List α) :
    run step s (as ++ bs) = run step (run step s as) bs := by
  induction as generalizing s with
  | nil => rfl
  | cons a as ih => exact ih (step s a)

/-- The events of a run that is cut off after `k` of them, if it is. -/
def cut : Option Nat → List α → List α
  | none, as => as
  | some k, as => as.take k

theorem cut_initial (k : Option Nat) (as : List α) : cut k as <+: as := by
  cases k with
  | none => exact List.prefix_refl as
  | some k => exact List.take_prefix k as

/-- `Q` holds in the first state and in every state after an event. -/
def Always (step : σ → α → σ) (Q : σ → Prop) : σ → List α → Prop
  | s, [] => Q s
  | s, a :: as => Q s ∧ Always step Q (step s a) as

/-- Every event of the run meets `P` in the state it is taken in. -/
def Along (step : σ → α → σ) (P : σ → α → Prop) : σ → List α → Prop
  | _, [] => True
  | s, a :: as => P s a ∧ Along step P (step s a) as

instance decidableAlong {step : σ → α → σ} {P : σ → α → Prop} [∀ s a, Decidable (P s a)] :
    (s : σ) → (as : List α) → Decidable (Along step P s as)
  | _, [] => isTrue trivial
  | s, a :: as =>
    have : Decidable (Along step P (step s a) as) := decidableAlong (step s a) as
    inferInstanceAs (Decidable (P s a ∧ Along step P (step s a) as))

instance decidableAlways {step : σ → α → σ} {Q : σ → Prop} [∀ s, Decidable (Q s)] :
    (s : σ) → (as : List α) → Decidable (Always step Q s as)
  | s, [] => inferInstanceAs (Decidable (Q s))
  | s, a :: as =>
    have : Decidable (Always step Q (step s a) as) := decidableAlways (step s a) as
    inferInstanceAs (Decidable (Q s ∧ Always step Q (step s a) as))

theorem always_head {step : σ → α → σ} {Q : σ → Prop} {s : σ} {as : List α}
    (h : Always step Q s as) : Q s := by
  cases as with
  | nil => exact h
  | cons a as => exact h.1

theorem always_iff (step : σ → α → σ) (Q : σ → Prop) (s : σ) (as : List α) :
    Always step Q s as ↔ ∀ bs, bs <+: as → Q (run step s bs) := by
  induction as generalizing s with
  | nil =>
    constructor
    · intro h bs hb
      rw [List.prefix_nil.mp hb]
      exact h
    · intro h
      exact h [] (List.prefix_refl _)
  | cons a as ih =>
    simp only [Always, ih]
    constructor
    · rintro ⟨h, ht⟩ bs hb
      cases bs with
      | nil => exact h
      | cons b bs =>
        obtain ⟨rfl, hbs⟩ := List.cons_prefix_cons.mp hb
        exact ht bs hbs
    · intro h
      refine ⟨h [] (List.nil_prefix), ?_⟩
      intro bs hb
      exact h (a :: bs) (List.cons_prefix_cons.mpr ⟨rfl, hb⟩)

theorem always_append {step : σ → α → σ} {Q : σ → Prop} {s : σ} {as bs : List α} :
    Always step Q s (as ++ bs) ↔ Always step Q s as ∧ Always step Q (run step s as) bs := by
  induction as generalizing s with
  | nil =>
    constructor
    · intro h
      have hbs : Always step Q s bs := h
      have hs : Q s := always_head hbs
      exact ⟨hs, hbs⟩
    · exact fun h => h.2
  | cons a as ih => simp only [List.cons_append, Always, run_cons, ih, and_assoc]

theorem always_last {step : σ → α → σ} {Q : σ → Prop} {s : σ} {as : List α}
    (h : Always step Q s as) : Q (run step s as) :=
  (always_iff step Q s as).mp h as (List.prefix_refl _)

theorem along_append {step : σ → α → σ} {P : σ → α → Prop} {s : σ} {as bs : List α} :
    Along step P s (as ++ bs) ↔ Along step P s as ∧ Along step P (run step s as) bs := by
  induction as generalizing s with
  | nil => simp [Along]
  | cons a as ih => simp only [List.cons_append, Along, run_cons, ih, and_assoc]

/-- A condition on events alone. -/
theorem along_of_mem {step : σ → α → σ} {E : α → Prop} (s : σ) {as : List α}
    (h : ∀ a ∈ as, E a) : Along step (fun _ => E) s as := by
  induction as generalizing s with
  | nil => trivial
  | cons a as ih =>
    exact ⟨h a List.mem_cons_self, ih (step s a) fun b hb => h b (List.mem_cons_of_mem a hb)⟩

/-- What every step that meets `P` preserves holds at the end of a run that
meets `P` throughout. -/
theorem run_invariant {step : σ → α → σ} {P : σ → α → Prop} {I : σ → Prop}
    (hstep : ∀ s a, I s → P s a → I (step s a)) {s : σ} {as : List α}
    (hs : I s) (hP : Along step P s as) : I (run step s as) := by
  induction as generalizing s with
  | nil => exact hs
  | cons a as ih => exact ih (hstep s a hs hP.1) hP.2

/-- It holds all along the run as well. -/
theorem always_invariant {step : σ → α → σ} {P : σ → α → Prop} {I : σ → Prop}
    (hstep : ∀ s a, I s → P s a → I (step s a)) {s : σ} {as : List α}
    (hs : I s) (hP : Along step P s as) : Always step I s as := by
  induction as generalizing s with
  | nil => exact hs
  | cons a as ih => exact ⟨hs, ih (hstep s a hs hP.1) hP.2⟩

/-- What an invariant and the condition say of each event of a run. -/
theorem along_of_along {step : σ → α → σ} {P R : σ → α → Prop} {I : σ → Prop}
    (hstep : ∀ s a, I s → P s a → I (step s a)) (hR : ∀ s a, I s → P s a → R s a) {s : σ}
    {as : List α} (hs : I s) (hP : Along step P s as) : Along step R s as := by
  induction as generalizing s with
  | nil => trivial
  | cons a as ih => exact ⟨hR s a hs hP.1, ih (hstep s a hs hP.1) hP.2⟩

/-- The run is in that state at some time. -/
def Passed (step : σ → α → σ) (s : σ) (as : List α) (t : σ) : Prop :=
  ∃ bs, bs <+: as ∧ run step s bs = t

theorem along_passed_from {step : σ → α → σ} {s : σ} (bs as : List α) :
    Along step (fun t a => Passed step s (bs ++ as) t ∧ Passed step s (bs ++ as) (step t a))
      (run step s bs) as := by
  induction as generalizing bs with
  | nil => trivial
  | cons a as ih =>
    have hnext : run step s (bs ++ [a]) = step (run step s bs) a := run_append step s bs [a]
    have hrest := ih (bs ++ [a])
    rw [hnext, List.append_assoc, List.singleton_append] at hrest
    refine ⟨⟨⟨bs, List.prefix_append bs _, rfl⟩, ⟨bs ++ [a], ?_, hnext⟩⟩, hrest⟩
    exact ⟨as, by rw [List.append_assoc, List.singleton_append]⟩

/-- The states before and after each event of a run are states of the run. -/
theorem along_passed (step : σ → α → σ) (s : σ) (as : List α) :
    Along step (fun t a => Passed step s as t ∧ Passed step s as (step t a)) s as :=
  along_passed_from [] as

theorem along_and {step : σ → α → σ} {P R : σ → α → Prop} {s : σ} {as : List α}
    (hP : Along step P s as) (hR : Along step R s as) :
    Along step (fun t a => P t a ∧ R t a) s as := by
  induction as generalizing s with
  | nil => trivial
  | cons a as ih => exact ⟨⟨hP.1, hR.1⟩, ih hP.2 hR.2⟩

/-- The unconditional rule. -/
theorem run_preserves {step : σ → α → σ} {I : σ → Prop}
    (hstep : ∀ s a, I s → I (step s a)) {s : σ} (hs : I s) (as : List α) :
    I (run step s as) :=
  run_invariant (P := fun _ _ => True) (fun s a h _ => hstep s a h) hs
    (along_of_mem s fun _ _ => trivial)

/-- `P` is the exact condition for `Q`: with an invariant `I` that no admissible
event can break, a run of admissible events is in `Q` throughout if and only if its
events meet `P` throughout. -/
theorem always_iff_along {step : σ → α → σ} {E P : σ → α → Prop} {I Q : σ → Prop}
    (hI : ∀ s a, E s a → I s → I (step s a))
    (hQ : ∀ s a, E s a → I s → Q s → (Q (step s a) ↔ P s a)) {s : σ} {as : List α}
    (hE : Along step E s as) (hs : I s) (hq : Q s) : Always step Q s as ↔ Along step P s as := by
  induction as generalizing s with
  | nil => exact ⟨fun _ => trivial, fun _ => hq⟩
  | cons a as ih =>
    obtain ⟨ha, has⟩ := hE
    simp only [Always, Along]
    constructor
    · rintro ⟨_, ht⟩
      have hq' := always_head ht
      exact ⟨(hQ s a ha hs hq).mp hq', (ih has (hI s a ha hs) hq').mp ht⟩
    · rintro ⟨hp, ht⟩
      have hq' := (hQ s a ha hs hq).mpr hp
      exact ⟨hq, (ih has (hI s a ha hs) hq').mpr ht⟩

/-- What the steps of a run tell, one after another. -/
def outputs (f : σ → α → β × σ) : σ → List α → List β
  | _, [] => []
  | s, a :: as => (f s a).1 :: outputs f (f s a).2 as

/-- A system whose every step is told the same by a step of another tells the same in every
run; `S` relates the events of the two and `R` their states. -/
theorem outputs_simulates {f : σ → α → β × σ} {f' : σ' → α' → β × σ'} {R : σ → σ' → Prop}
    {S : α → α' → Prop} {P : α → Prop}
    (hstep : ∀ s s' a, R s s' → P a →
      ∃ a', S a a' ∧ (f s a).1 = (f' s' a').1 ∧ R (f s a).2 (f' s' a').2)
    {s : σ} {s' : σ'} (hs : R s s') {as : List α} (has : ∀ a ∈ as, P a) :
    ∃ as', List.Forall₂ S as as' ∧ outputs f s as = outputs f' s' as' := by
  induction as generalizing s s' with
  | nil => exact ⟨[], .nil, rfl⟩
  | cons a as ih =>
    obtain ⟨a', ha', htold, hnext⟩ := hstep s s' a hs (has a List.mem_cons_self)
    obtain ⟨as', has', htail⟩ := ih hnext fun b hb => has b (List.mem_cons_of_mem a hb)
    exact ⟨a' :: as', .cons ha' has', by rw [outputs, outputs, htold, htail]⟩

end Transitions
