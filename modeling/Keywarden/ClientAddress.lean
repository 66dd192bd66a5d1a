import Keywarden.AuditRecord

/-!
# The address of a client, over WSGI and over ASGI

`get_client_ip` and `get_client_ip_from_scope` look in the same places in the same order. What
they look at differs when a header comes more than once: a WSGI server joins its values with
commas, in a scope they stay apart and the first one is taken.
-/
namespace Keywarden.ClientAddress

open Text AuditMatching AuditRecord

/-- The headers of a request as they come over the connection. -/
abbrev Headers := List (List UInt8 × List UInt8)

/-- The values of a header, in the order they come in. -/
def valuesOf (headers : Headers) (name : String) : List (List Char) :=
  (headers.filter fun (key, _) => key.map lowerByte = (latin1Encode name).map lowerByte).map
    fun (_, value) => latin1Decode value

def joined : List (List Char) → Option (List Char)
  | [] => none
  | values => some ([','].intercalate values)

/-- `request.META` as the WSGI server makes it. -/
def wsgiMeta (headers : Headers) (peer : List Char) : Meta where
  httpXRealIp := joined (valuesOf headers "x-real-ip")
  httpXForwardedFor := joined (valuesOf headers "x-forwarded-for")
  remoteAddr := some peer
  httpXRequestId := joined (valuesOf headers "x-request-id")
  httpXCorrelationId := joined (valuesOf headers "x-correlation-id")
  httpUserAgent := joined (valuesOf headers "user-agent")

def overWsgi (headers : Headers) (peer : List Char) (request : Request) : Request :=
  { request with headers := wsgiMeta headers peer }

def overAsgi (headers : Headers) (peer : List Char) (scope : Scope) : Scope :=
  { scope with headers := headers, client := some peer }

section
variable (U : Unicode) (headers : Headers) (peer : List Char)

/-- The address in `X-Real-IP`, all its values together. -/
def realIp : Option (List Char) := normalizeIp U (joined (valuesOf headers "x-real-ip"))

/-- The address in its first value. -/
def firstRealIp : Option (List Char) := normalizeIp U (valuesOf headers "x-real-ip").head?

/-- The first address in the first value of `X-Forwarded-For`. -/
def firstForwardedIp : Option (List Char) :=
  forwardedIp U (valuesOf headers "x-forwarded-for").head?

/-- The first address in its other values. -/
def laterForwardedIp : Option (List Char) :=
  (valuesOf headers "x-forwarded-for").tail.findSome? fun value => forwardedIp U (some value)

/-- The repeated values do not matter: `X-Real-IP` reads the same with them, and the later values
of `X-Forwarded-For` are not come to, or have no address other than the peer's. Otherwise
`X-Real-IP` has an address on one side only, and that is the address the other side finds. -/
inductive Agreeing : Prop where
  | same (real : realIp U headers = firstRealIp U headers)
      (later : (firstRealIp U headers).isSome = true ∨ (firstForwardedIp U headers).isSome = true ∨
        ∀ ip ∈ laterForwardedIp U headers, normalizeIp U (some peer) = some ip)
  | first (ip : List Char) (real : realIp U headers = none) (only : firstRealIp U headers = some ip)
      (found : ((firstForwardedIp U headers).or (laterForwardedIp U headers)).or
        (normalizeIp U (some peer)) = some ip)
  | together (ip : List Char) (real : realIp U headers = some ip) (only : firstRealIp U headers = none)
      (found : (firstForwardedIp U headers).or (normalizeIp U (some peer)) = some ip)

end

variable {U : Unicode} {headers : Headers} {peer : List Char}

/-! ## What the two look at -/

theorem getScopeHeader_eq (scope : Scope) (name : String) :
    getScopeHeader (overAsgi headers peer scope) name = (valuesOf headers name).head? := by
  rw [valuesOf, List.head?_map, List.head?_filter]
  rfl

theorem forwardedIp_cons (value : List Char) (values : List (List Char)) :
    forwardedIp U (joined (value :: values)) =
      (forwardedIp U (some value)).or (values.findSome? fun v => forwardedIp U (some v)) := by
  induction values generalizing value with
  | nil => simp [joined]
  | cons v values ih =>
    have hcons := ih v
    simp only [joined, forwardedIp, Option.getD_some] at hcons ⊢
    rw [List.intercalate_cons_cons, List.append_assoc, List.singleton_append,
      List.splitOn_append_cons_self, List.findSome?_append, hcons, List.findSome?_cons]
    congr 1
    cases (v.splitOn ',').findSome? fun part => normalizeIp U (some part) with
    | none => rfl
    | some ip => rfl

theorem forwardedIp_joined : forwardedIp U (joined (valuesOf headers "x-forwarded-for")) =
    (firstForwardedIp U headers).or (laterForwardedIp U headers) := by
  unfold firstForwardedIp laterForwardedIp
  cases valuesOf headers "x-forwarded-for" with
  | nil => simp [joined]
  | cons value values => exact forwardedIp_cons value values

theorem getClientIp_wsgi (request : Request) : getClientIp U (overWsgi headers peer request) =
    ((realIp U headers).or ((firstForwardedIp U headers).or (laterForwardedIp U headers))).or
      (normalizeIp U (some peer)) := by
  rw [getClientIp, ← forwardedIp_joined]
  rfl

theorem getClientIp_asgi (scope : Scope) : getClientIpFromScope U (overAsgi headers peer scope) =
    ((firstRealIp U headers).or (firstForwardedIp U headers)).or (normalizeIp U (some peer)) := by
  rw [getClientIpFromScope, getScopeHeader_eq, getScopeHeader_eq]
  rfl

/-! ## When they find the same -/

theorem Agreeing.or_eq (h : Agreeing U headers peer) :
    ((realIp U headers).or ((firstForwardedIp U headers).or (laterForwardedIp U headers))).or
        (normalizeIp U (some peer)) =
      ((firstRealIp U headers).or (firstForwardedIp U headers)).or (normalizeIp U (some peer)) := by
  obtain ⟨hreal, hlater⟩ | ⟨ip, hreal, hfirst, hfound⟩ | ⟨ip, hreal, hfirst, hfound⟩ := h
  · rw [hreal]
    cases hfirst : firstRealIp U headers with
    | some ip => rfl
    | none =>
      cases hforwarded : firstForwardedIp U headers with
      | some ip => rfl
      | none =>
        rw [hfirst, hforwarded] at hlater
        cases hrest : laterForwardedIp U headers with
        | none => rfl
        | some ip =>
          obtain h | h | h := hlater
          · cases h
          · cases h
          · exact (h ip hrest).symm
  · rw [hreal, hfirst]
    exact hfound
  · rw [hreal, hfirst]
    exact hfound.symm

theorem agreeing_of_or_eq
    (h : ((realIp U headers).or ((firstForwardedIp U headers).or (laterForwardedIp U headers))).or
        (normalizeIp U (some peer)) =
      ((firstRealIp U headers).or (firstForwardedIp U headers)).or (normalizeIp U (some peer))) :
    Agreeing U headers peer := by
  cases hreal : realIp U headers with
  | some ip =>
    cases hfirst : firstRealIp U headers with
    | some ip' =>
      rw [hreal, hfirst] at h
      refine .same ?_ (.inl ?_)
      · rw [hreal, hfirst]
        exact h
      · rw [hfirst]
        rfl
    | none =>
      rw [hreal, hfirst] at h
      exact .together ip hreal hfirst h.symm
  | none =>
    cases hfirst : firstRealIp U headers with
    | some ip =>
      rw [hreal, hfirst] at h
      exact .first ip hreal hfirst h
    | none =>
      rw [hreal, hfirst] at h
      refine .same (hreal.trans hfirst.symm) (.inr ?_)
      cases hforwarded : firstForwardedIp U headers with
      | some ip => exact .inl rfl
      | none =>
        rw [hforwarded] at h
        refine .inr fun ip hip => ?_
        rw [Option.mem_def.mp hip] at h
        exact h.symm

/-- For any headers and peer: the two find the same address if and only if the repeated values do
not matter, or come to what is found without them. -/
theorem getClientIp_eq_iff (U : Unicode) (headers : Headers) (peer : List Char) (request : Request)
    (scope : Scope) : getClientIp U (overWsgi headers peer request) =
      getClientIpFromScope U (overAsgi headers peer scope) ↔ Agreeing U headers peer := by
  rw [getClientIp_wsgi, getClientIp_asgi]
  exact ⟨agreeing_of_or_eq, Agreeing.or_eq⟩

/-- Headers that come once agree. -/
theorem agreeing_of_single (hreal : (valuesOf headers "x-real-ip").length ≤ 1)
    (hforwarded : (valuesOf headers "x-forwarded-for").length ≤ 1) : Agreeing U headers peer := by
  have hsingle : ∀ values : List (List Char), values.length ≤ 1 → joined values = values.head? ∧
      values.tail = [] := by
    intro values h
    match values, h with
    | [], _ => exact ⟨rfl, rfl⟩
    | [value], _ => exact ⟨by simp [joined], rfl⟩
    | _ :: _ :: _, h => simp at h
  refine .same ?_ (.inr (.inr ?_))
  · rw [realIp, (hsingle _ hreal).1, firstRealIp]
  · rw [laterForwardedIp, (hsingle _ hforwarded).2]
    intro ip hip
    cases hip

/-- Two values, of which the second one has the address. -/
def twoValues : Headers :=
  [(latin1Encode "X-Forwarded-For", latin1Encode "unknown"),
    (latin1Encode "X-Forwarded-For", latin1Encode "203.0.113.7")]

/-- Over ASGI the address is the one of the proxy. -/
theorem second_value_lost : ¬ ∀ (U : Unicode) (headers : Headers) (peer : List Char)
    (request : Request) (scope : Scope), getClientIp U (overWsgi headers peer request) =
      getClientIpFromScope U (overAsgi headers peer scope) := by
  intro h
  have hsame := h .ascii twoValues "10.0.0.1".toList ⟨[], [], [], none, none, {}⟩ {}
  exact absurd hsame (by decide +kernel)

end Keywarden.ClientAddress
