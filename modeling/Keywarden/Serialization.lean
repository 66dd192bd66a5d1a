import Mathlib.Data.List.Nodup

/-!
# Serial orders

Operations that take effect one after the other, each at one point of a run. What is
observed of the state is serial when it is what the operations that have taken effect
would leave behind, carried out whole in some order.
-/
namespace Serialization

variable {ι σ ρ : Type}

/-- What the operations of a list leave, carried out in its order. -/
def perform (effect : ι → σ → σ) (order : List ι) (s : σ) : σ :=
  order.foldl (fun s i => effect i s) s

theorem perform_append_singleton (effect : ι → σ → σ) (order : List ι) (i : ι) (s : σ) :
    perform effect (order ++ [i]) s = effect i (perform effect order s) := by
  simp only [perform, List.foldl_append, List.foldl_cons, List.foldl_nil]

theorem perform_congr {effect effect' : ι → σ → σ} {order : List ι}
    (h : ∀ i ∈ order, effect i = effect' i) (s : σ) :
    perform effect order s = perform effect' order s := by
  induction order generalizing s with
  | nil => rfl
  | cons i order ih =>
    simp only [perform, List.foldl_cons, h i List.mem_cons_self]
    exact ih (fun j hj => h j (List.mem_cons_of_mem i hj)) _

/-- The observation `r` is the one that the operations that are done leave when they
are carried out from `s` in some order, each of them once. -/
def Serial (effect : ι → σ → σ) (observe : σ → ρ) (done : ι → Prop) (s : σ) (r : ρ) : Prop :=
  ∃ order : List ι, order.Nodup ∧ (∀ i, i ∈ order ↔ done i) ∧ observe (perform effect order s) = r

theorem serial_none (effect : ι → σ → σ) (observe : σ → ρ) {done : ι → Prop} (s : σ)
    (h : ∀ i, ¬ done i) : Serial effect observe done s (observe s) :=
  ⟨[], List.nodup_nil, fun i => ⟨fun hi => absurd hi List.not_mem_nil, fun hi => absurd hi (h i)⟩, rfl⟩

/-- Only what is done counts. -/
theorem Serial.congr {effect effect' : ι → σ → σ} {observe : σ → ρ} {done done' : ι → Prop} {s : σ}
    {r : ρ} (h : Serial effect observe done s r) (hdone : ∀ i, done' i ↔ done i)
    (heffect : ∀ i, done i → effect i = effect' i) : Serial effect' observe done' s r := by
  obtain ⟨order, hnodup, hmem, hr⟩ := h
  refine ⟨order, hnodup, fun i => (hmem i).trans (hdone i).symm, ?_⟩
  rw [← perform_congr fun i hi => heffect i ((hmem i).mp hi)]
  exact hr

/-- One more operation takes effect, last of all. -/
theorem Serial.extend {effect effect' : ι → σ → σ} {observe : σ → ρ} {done done' : ι → Prop} {s : σ}
    {r r' : ρ} {k : ι} (h : Serial effect observe done s r) (hk : ¬ done k)
    (hdone : ∀ i, done' i ↔ done i ∨ i = k) (heffect : ∀ i, done i → effect i = effect' i)
    (hr' : ∀ order, observe (perform effect order s) = r →
      observe (effect' k (perform effect order s)) = r') :
    Serial effect' observe done' s r' := by
  obtain ⟨order, hnodup, hmem, hr⟩ := h
  refine ⟨order ++ [k], ?_, ?_, ?_⟩
  · rw [List.nodup_append]
    refine ⟨hnodup, List.nodup_singleton k, ?_⟩
    intro i hi j hj hij
    rw [List.mem_singleton] at hj
    rw [hij, hj] at hi
    exact hk ((hmem k).mp hi)
  · intro i
    rw [List.mem_append, List.mem_singleton, hmem, hdone]
  · rw [perform_append_singleton, ← perform_congr fun i hi => heffect i ((hmem i).mp hi)]
    exact hr' order hr

end Serialization
