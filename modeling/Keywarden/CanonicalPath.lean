import Keywarden.AuditMatching

/-!
# The canonical form of a path

`_normalize_path` is applied to a pattern when it is parsed and to a path when it is matched.
Its loop is taken here without a bound on the rounds, and it ends on every text. The white
space is stripped before the text is cut at its first `?`, so what stands before the cut can
end in white space again, which the next normalisation strips: exactly then the result is not
its own canonical form.
-/
namespace Keywarden.CanonicalPath

open Keywarden.AuditMatching
open Text

/-- `while "//" in s: s = s.replace("//", "/")` starts with the first text and ends with the
second. -/
inductive While : List Char → List Char → Prop
  | done {s : List Char} (h : ¬ ['/', '/'] <:+: s) : While s s
  | round {s t : List Char} (h : ['/', '/'] <:+: s) (hrest : While (replace ['/', '/'] ['/'] s) t) :
      While s t

/-- `_normalize_path(value)` returns the result. -/
def Returns (value result : List Char) : Prop :=
  let candidate := strip isSpace value
  if candidate = [] then result = []
  else
    let candidate := candidate.takeWhile (· ≠ '?')
    let candidate := if candidate.head? = some '/' then candidate else '/' :: candidate
    While candidate result

/-- It returns, and what it returns is in canonical form. -/
def Canonical (value : List Char) : Prop :=
  ∃ result, Returns value result ∧ (result = [] ∨ result.head? = some '/') ∧
    ¬ ['/', '/'] <:+: result ∧ '?' ∉ result ∧ Returns result result

/-- What stands before the first `?` of the stripped text does not end in white space. -/
def Trimmed (value : List Char) : Prop :=
  ∀ c ∈ ((strip isSpace value).takeWhile (· ≠ '?')).getLast?, isSpace c = false

/-! ## The loop ends -/

/-- A round makes the text shorter. -/
theorem while_collapse {rounds : Nat} {s : List Char} (h : s.length ≤ rounds) :
    While s (collapse rounds s) := by
  induction rounds generalizing s with
  | zero => exact .done (collapse_done h)
  | succ rounds ih =>
    rw [collapse]
    split
    · next hinfix =>
      have hlt := length_replace_lt ['/'] (by decide) hinfix
      exact .round hinfix (ih (by omega))
    · next hinfix => exact .done hinfix

theorem While.unique {s t u : List Char} (ht : While s t) (hu : While s u) : t = u := by
  induction ht with
  | done h =>
    cases hu with
    | done _ => rfl
    | round hinfix _ => exact absurd hinfix h
  | round h _ ih =>
    cases hu with
    | done hinfix => exact absurd h hinfix
    | round _ hrest => exact ih hrest

theorem while_iff {s t : List Char} : While s t ↔ t = collapse s.length s := by
  have hend := while_collapse (Nat.le_refl s.length)
  refine ⟨fun h => h.unique hend, ?_⟩
  rintro rfl
  exact hend

/-- It returns on every text, and one result only. -/
theorem returns_iff {value result : List Char} :
    Returns value result ↔ result = normalizePath value := by
  simp only [Returns, normalizePath]
  split
  · rfl
  · exact while_iff

/-! ## What the result looks like -/

/-- The text that goes into the loop. -/
def candidate (value : List Char) : List Char :=
  let before := (strip isSpace value).takeWhile (· ≠ '?')
  if before.head? = some '/' then before else '/' :: before

theorem head_candidate (value : List Char) : (candidate value).head? = some '/' := by
  rw [candidate]
  split
  · next h => exact h
  · rfl

theorem query_notMem_candidate (value : List Char) : '?' ∉ candidate value := by
  have hbefore : '?' ∉ (strip isSpace value).takeWhile (· ≠ '?') := fun h => by
    simpa using List.mem_takeWhile_imp h
  rw [candidate]
  split
  · exact hbefore
  · exact List.not_mem_cons_of_ne_of_not_mem (by decide) hbefore

/-- The slash in front is not white space. -/
theorem last_candidate (value : List Char) :
    (∀ c ∈ (candidate value).getLast?, isSpace c = false) ↔ Trimmed value := by
  rw [Trimmed, candidate]
  generalize (strip isSpace value).takeWhile (· ≠ '?') = before
  split
  · rfl
  · cases before with
    | nil => simp [show isSpace '/' = false from by decide]
    | cons c s => rw [List.getLast?_cons_cons]

theorem normalizePath_eq_squeeze {value : List Char} (h : strip isSpace value ≠ []) :
    normalizePath value = squeeze '/' (candidate value) := by
  rw [normalizePath, if_neg h]
  exact collapse_eq _

theorem normalizePath_of_strip_nil {value : List Char} (h : strip isSpace value = []) :
    normalizePath value = [] := by
  rw [normalizePath, if_pos h]

theorem squeeze_single (s : List Char) : ¬ ['/', '/'] <:+: squeeze '/' s := by
  rw [← squeeze_squeeze, ← collapse_eq]
  exact collapse_done (Nat.le_refl _)

theorem normalizePath_head (value : List Char) :
    normalizePath value = [] ∨ (normalizePath value).head? = some '/' := by
  by_cases h : strip isSpace value = []
  · exact .inl (normalizePath_of_strip_nil h)
  · right
    rw [normalizePath_eq_squeeze h, head?_squeeze, head_candidate]

theorem normalizePath_single (value : List Char) : ¬ ['/', '/'] <:+: normalizePath value := by
  by_cases h : strip isSpace value = []
  · rw [normalizePath_of_strip_nil h]
    exact fun hinfix => absurd hinfix (by simp)
  · rw [normalizePath_eq_squeeze h]
    exact squeeze_single _

theorem query_notMem_normalizePath (value : List Char) : '?' ∉ normalizePath value := by
  by_cases h : strip isSpace value = []
  · simp [normalizePath_of_strip_nil h]
  · rw [normalizePath_eq_squeeze h, mem_squeeze]
    exact query_notMem_candidate value

theorem getLast_squeeze (s : List Char) : (squeeze '/' s).getLast? = s.getLast? := by
  induction s with
  | nil => rfl
  | cons b s ih =>
    rw [squeeze]
    split
    · next h =>
      obtain ⟨t, rfl⟩ := List.head?_eq_some_iff.mp h.2
      rw [ih, List.getLast?_cons_cons]
    · cases s with
      | nil => rfl
      | cons c t =>
        have hne : squeeze '/' (c :: t) ≠ [] := fun hnil => by
          simpa [hnil] using head?_squeeze (a := '/') (c :: t)
        obtain ⟨d, u, hu⟩ := List.exists_cons_of_ne_nil hne
        rw [hu, List.getLast?_cons_cons, ← hu, ih, List.getLast?_cons_cons]

/-! ## When the result is a fixed point -/

/-- A path with single slashes and no query is normalised by stripping alone. -/
theorem normalizePath_of_path {s : List Char} (hhead : s.head? = some '/')
    (hsingle : ¬ ['/', '/'] <:+: s) (hquery : '?' ∉ s)
    (hlast : ∀ c ∈ s.getLast?, isSpace c = false) : normalizePath s = s := by
  obtain ⟨t, rfl⟩ := List.head?_eq_some_iff.mp hhead
  have hstrip : strip isSpace ('/' :: t) = '/' :: t :=
    strip_eq_self rfl (by decide) (List.getLast?_eq_some_getLast (by simp))
      (hlast _ (List.getLast?_eq_some_getLast (by simp)))
  have htake : ('/' :: t).takeWhile (· ≠ '?') = '/' :: t :=
    List.takeWhile_eq_self_iff.mpr fun c hc => by simpa using ne_of_mem_of_not_mem hc hquery
  rw [normalizePath_eq_squeeze (by simp [hstrip]), candidate, hstrip, htake, if_pos hhead,
    squeeze_eq_self hsingle]

theorem last_strip {s : List Char} : ∀ c ∈ (strip isSpace s).getLast?, isSpace c = false := by
  intro c hc
  obtain ⟨hne, rfl⟩ := List.mem_getLast?_eq_getLast hc
  exact Bool.eq_false_iff.mpr (List.rdropWhile_last_not isSpace (s.dropWhile isSpace) hne)

/-- Without a query nothing is cut off. -/
theorem trimmed_of_query {s : List Char} (h : '?' ∉ s) : Trimmed s := by
  have htake : (strip isSpace s).takeWhile (· ≠ '?') = strip isSpace s :=
    List.takeWhile_eq_self_iff.mpr fun c hc => by
      simpa using ne_of_mem_of_not_mem (mem_of_mem_strip hc) h
  rw [Trimmed, htake]
  exact last_strip

theorem last_normalizePath (value : List Char) :
    (∀ c ∈ (normalizePath value).getLast?, isSpace c = false) ↔ Trimmed value := by
  by_cases h : strip isSpace value = []
  · simp [normalizePath_of_strip_nil h, Trimmed, h]
  · rw [normalizePath_eq_squeeze h, getLast_squeeze, last_candidate]

theorem normalizePath_fixed_iff (value : List Char) :
    normalizePath (normalizePath value) = normalizePath value ↔ Trimmed value := by
  rw [← last_normalizePath]
  constructor
  · intro h
    rw [← h, last_normalizePath]
    exact trimmed_of_query (query_notMem_normalizePath value)
  · intro hlast
    obtain hnil | hhead := normalizePath_head value
    · rw [hnil]
      rfl
    · exact normalizePath_of_path hhead (normalizePath_single value)
        (query_notMem_normalizePath value) hlast

/-- The result of the second normalisation is always one. -/
theorem normalizePath_twice (value : List Char) :
    normalizePath (normalizePath (normalizePath value)) = normalizePath (normalizePath value) :=
  (normalizePath_fixed_iff _).mpr (trimmed_of_query (query_notMem_normalizePath value))

/-- A text has a canonical form unless white space stands before its first `?`. -/
theorem canonical_iff (value : List Char) : Canonical value ↔ Trimmed value := by
  simp only [Canonical, returns_iff, exists_eq_left, normalizePath_head, normalizePath_single,
    query_notMem_normalizePath, not_false_eq_true, true_and]
  rw [eq_comm, normalizePath_fixed_iff]

/-- The pattern keeps the white space that a path loses when it is matched. -/
theorem query_after_space : ¬ Canonical "a ?b".toList ∧
    normalizePath "a ?b".toList = "/a ".toList ∧ normalizePath "/a ".toList = "/a".toList := by
  have hvalue : normalizePath "a ?b".toList = "/a ".toList := by decide
  have hagain : normalizePath "/a ".toList = "/a".toList := by decide
  refine ⟨?_, hvalue, hagain⟩
  rintro ⟨result, hresult, -, -, -, hfixed⟩
  rw [returns_iff] at hresult hfixed
  rw [hresult, hvalue, hagain] at hfixed
  exact absurd hfixed (by decide)

end Keywarden.CanonicalPath
