import Keywarden.AuditRecord
import Keywarden.Template

/-!
# Event types made of suggestions

The second half of `apps/audit/matching.py` lists the routes of the API for the form of an
event type. A suggestion is a route with its placeholders in it, and an event type that lists
it should take the requests of that route. The placeholder becomes a star, which takes
slashes as well: so an event type is taken for the requests of other routes, too.
-/
namespace Keywarden.AuditSuggestions

open Rows Text Template AuditMatching
open AuditRecord (Request apiEndpoint requestPath resolveRoute)

/-! ## The routes there are -/

/-- `URLPattern` and `URLResolver`, by the text of their patterns. -/
inductive Url where
  | pattern (segment : List Char)
  | resolver (segment : List Char) (urlPatterns : List Url)

def joinPaths (pre segment : List Char) : List Char :=
  if pre = [] then segment
  else if segment = [] then pre
  else pre.rdropWhile (· = '/') ++ '/' :: segment.dropWhile (· = '/')

mutual

def walkUrlpatterns : List Url → List Char → List (List Char)
  | [], _ => []
  | pattern :: patterns, pre => walkUrl pattern pre ++ walkUrlpatterns patterns pre

def walkUrl : Url → List Char → List (List Char)
  | .pattern segment, pre => [joinPaths pre segment]
  | .resolver segment urlPatterns, pre => walkUrlpatterns urlPatterns (joinPaths pre segment)

end

def normalizeSuggestion (U : Unicode) (value : List Char) : List Char :=
  normalizePath (sub (regexGroup U) (fun name => '<' :: (name ++ ['>']))
    (replace ['\\'] [] (stripRegexAnchors value)))

def isApi (suggestion : List Char) : Bool := "/api".toList.isPrefixOf suggestion

def listApiEndpointSuggestions (U : Unicode) (urlPatterns : List Url) : List (List Char) :=
  let rawPatterns := walkUrlpatterns urlPatterns []
  let suggestions := ((rawPatterns.filter (· ≠ [])).map (normalizeSuggestion U)).filter isApi
  (suggestions.dedup.insertionSort (· ≤ ·)).filter (· ≠ [])

/-- The segments of a pattern, after those of the resolvers it is in. -/
abbrev Route := List (List Char)

mutual

def routes : List Url → List Route
  | [] => []
  | pattern :: patterns => routesOf pattern ++ routes patterns

def routesOf : Url → List Route
  | .pattern segment => [[segment]]
  | .resolver segment urlPatterns => (routes urlPatterns).map (segment :: ·)

end

def suggestion (U : Unicode) (r : Route) : List Char :=
  normalizeSuggestion U (r.foldl joinPaths [])

/-! ## Routing -/

/-- The characters that some notation for routes or patterns has a use for. -/
def special : List Char := ['^', '$', '?', '\\', '(', ')', '*', '[', ']', '<', '>']

def ordinary (c : Char) : Bool := !isSpace c && !special.contains c

def PathPiece : Piece → Prop
  | .char c => ordinary c = true
  | .hole name => name ≠ [] ∧ ∀ c ∈ name, ordinary c = true ∧ c ≠ '/'

instance : DecidablePred PathPiece
  | .char c => inferInstanceAs (Decidable (ordinary c = true))
  | .hole name => @instDecidableAnd _ _ inferInstance (List.decidableBAll _ name)

/-- What is written for `path()`: a text with placeholders, not a regular expression. -/
def PathSegment (segment : List Char) : Prop := ∀ p ∈ pieces segment, PathPiece p

instance : DecidablePred PathSegment := fun segment =>
  inferInstanceAs (Decidable (∀ p ∈ pieces segment, PathPiece p))

/-- What other patterns are included under: nothing, or something that ends in a slash. -/
def Ends (segment : List Char) : Prop := segment = [] ∨ segment.getLast? = some '/'

instance : DecidablePred Ends := fun segment =>
  inferInstanceAs (Decidable (segment = [] ∨ segment.getLast? = some '/'))

/-- The routes of the API are all for `path()`. -/
def PathRoutes (U : Unicode) (urlPatterns : List Url) : Prop :=
  ∀ r ∈ routes urlPatterns, isApi (suggestion U r) = true →
    (∀ segment ∈ r, PathSegment segment) ∧ ∀ segment ∈ r.dropLast, Ends segment

instance (U : Unicode) (urlPatterns : List Url) : Decidable (PathRoutes U urlPatterns) :=
  inferInstanceAs (Decidable (∀ r ∈ routes urlPatterns, isApi (suggestion U r) = true → _))

/-- What the framework fills a placeholder with: without a converter it is a text that is not
empty and has no slash. -/
def converts (name value : List Char) : Prop := ':' ∉ name → value ≠ [] ∧ '/' ∉ value

instance : DecidableRel converts := fun name value =>
  inferInstanceAs (Decidable (':' ∉ name → value ≠ [] ∧ '/' ∉ value))

/-- The framework's routing. A path is resolved by one of the routes, which it is with the
placeholders filled, and `resolver_match.route` has its segments one after the other. -/
structure Routing where
  resolve : List Url → List Char → Option Route
  route : Route → List Char
  mem : ∀ urlPatterns path r, resolve urlPatterns path = some r → r ∈ routes urlPatterns
  fills : ∀ urlPatterns path r, resolve urlPatterns path = some r →
    (∀ segment ∈ r, PathSegment segment) →
      ∃ rest, path = '/' :: rest ∧ Fills converts (r.flatMap pieces) rest
  route_eq : ∀ r, (∀ segment ∈ r, PathSegment segment) → route r = r.flatten

/-! ## The catalog -/

/-- The event types of the API in the order of their keys. -/
def apiEventTypes (U : Unicode) (stored : Table EventType) : List EventType :=
  (stored.rows.filter (·.kind = .api)).insertionSort fun a b => U.collates a.key b.key = true

/-- What the process remembers, if anything, is what is stored. -/
def Current (U : Unicode) (stored : Table EventType) (cache : Cache) : Prop :=
  ∀ since eventTypes, cache .api = some (since, eventTypes) → eventTypes = apiEventTypes U stored

/-- No filter of addresses, and suggestions as they are. -/
structure Suggested (U : Unicode) (urlPatterns : List Url) (t : EventType) : Prop where
  whitelist : t.ipWhitelistEnabled = false
  blacklist : t.ipBlacklistEnabled = false
  endpoints : ∀ s ∈ t.endpoints, s ∈ listApiEndpointSuggestions U urlPatterns

/-- No event type before the first that lists the suggestion lists one that takes the text of
the suggestion or the path, a placeholder standing for any text, an empty one and one with
slashes included. -/
def Undisturbed (U : Unicode) (stored : Table EventType) (own path : List Char) : Prop :=
  ∀ t ∈ (apiEventTypes U stored).takeWhile (own ∉ ·.endpoints), ∀ s ∈ t.endpoints,
    ¬ Fills anything (pieces s) own ∧ ¬ Fills anything (pieces s) (normalizePath path)

instance (U : Unicode) (stored : Table EventType) (own path : List Char) :
    Decidable (Undisturbed U stored own path) :=
  inferInstanceAs (Decidable (∀ t ∈ (apiEventTypes U stored).takeWhile (own ∉ ·.endpoints),
    ∀ s ∈ t.endpoints, ¬ Fills anything (pieces s) own ∧
      ¬ Fills anything (pieces s) (normalizePath path)))

/-! ## Paths that are joined -/

theorem squeeze_joinPaths {pre : List Char} (h : Ends pre) (segment : List Char) :
    squeeze '/' (joinPaths pre segment) = squeeze '/' (pre ++ segment) := by
  rw [joinPaths]
  split
  · next hnil => rw [hnil, List.nil_append]
  · next hne =>
    split
    · next hnil => rw [hnil, List.append_nil]
    · obtain ⟨u, rfl⟩ := List.getLast?_eq_some_iff.mp (h.resolve_left hne)
      calc squeeze '/' ((u ++ ['/']).rdropWhile (· = '/') ++ '/' :: segment.dropWhile (· = '/'))
        _ = squeeze '/' (u ++ ['/'] ++ '/' :: segment.dropWhile (· = '/')) :=
          squeeze_rdropWhile_append _ _
        _ = squeeze '/' (u ++ ['/'] ++ '/' :: segment) := by
          rw [← squeeze_append_squeeze, squeeze_cons_dropWhile, squeeze_append_squeeze]
        _ = squeeze '/' (u ++ ['/'] ++ segment) := by
          rw [List.append_assoc, List.singleton_append, ← squeeze_append_squeeze,
            squeeze_cons_self, squeeze_append_squeeze, List.append_assoc, List.singleton_append]

theorem Ends.joinPaths {pre segment : List Char} (hpre : Ends pre) (h : Ends segment) :
    Ends (joinPaths pre segment) := by
  rw [AuditSuggestions.joinPaths]
  split
  · exact h
  · split
    · exact hpre
    · next hne =>
      obtain ⟨u, rfl⟩ := List.getLast?_eq_some_iff.mp (h.resolve_left hne)
      right
      rw [List.getLast?_append_cons]
      cases hu : (u ++ ['/']).dropWhile (· = '/') with
      | nil => rfl
      | cons c t =>
        have hlast := (List.dropWhile_suffix (l := u ++ ['/']) (· = '/')).getLast (by simp [hu])
        simp only [hu, List.getLast_append_singleton] at hlast
        rw [List.getLast?_cons_cons, List.getLast?_eq_some_getLast (List.cons_ne_nil _ _), hlast]

theorem squeeze_foldl_joinPaths {r : Route} (h : ∀ segment ∈ r.dropLast, Ends segment)
    {pre : List Char} (hpre : Ends pre) :
    squeeze '/' (r.foldl joinPaths pre) = squeeze '/' (pre ++ r.flatten) := by
  induction r generalizing pre with
  | nil => simp
  | cons segment r ih =>
    cases r with
    | nil => simpa using squeeze_joinPaths hpre segment
    | cons next r =>
      rw [List.dropLast_cons_cons] at h
      have hjoin := hpre.joinPaths (h segment List.mem_cons_self)
      rw [List.foldl_cons, ih (fun s hs => h s (List.mem_cons_of_mem _ hs)) hjoin,
        ← squeeze_squeeze_append, squeeze_joinPaths hpre, squeeze_squeeze_append,
        List.append_assoc, ← List.flatten_cons]

mutual

theorem walkUrlpatterns_eq (urlPatterns : List Url) (pre : List Char) :
    walkUrlpatterns urlPatterns pre = (routes urlPatterns).map (·.foldl joinPaths pre) :=
  match urlPatterns with
  | [] => rfl
  | pattern :: patterns => by
    rw [walkUrlpatterns, routes, List.map_append, walkUrl_eq pattern pre,
      walkUrlpatterns_eq patterns pre]

theorem walkUrl_eq (pattern : Url) (pre : List Char) :
    walkUrl pattern pre = (routesOf pattern).map (·.foldl joinPaths pre) :=
  match pattern with
  | .pattern segment => rfl
  | .resolver segment urlPatterns => by
    rw [walkUrl, routesOf, List.map_map, walkUrlpatterns_eq urlPatterns]
    rfl

end

/-- The suggestions are those of the routes of the API. -/
theorem mem_suggestions {U : Unicode} {urlPatterns : List Url} {s : List Char} :
    s ∈ listApiEndpointSuggestions U urlPatterns ↔
      ∃ r ∈ routes urlPatterns, suggestion U r = s ∧ isApi s = true := by
  have hne : ∀ s, isApi s = true → s ≠ [] := by
    rintro _ h rfl
    cases h
  have hempty : normalizeSuggestion U [] = [] := by rfl
  simp only [listApiEndpointSuggestions, walkUrlpatterns_eq, List.mem_filter, List.mem_insertionSort,
    List.mem_dedup, List.mem_map, decide_eq_true_eq]
  constructor
  · rintro ⟨⟨⟨_, ⟨⟨r, hr, rfl⟩, -⟩, rfl⟩, hapi⟩, -⟩
    exact ⟨r, hr, rfl, hapi⟩
  · rintro ⟨r, hr, rfl, hapi⟩
    refine ⟨⟨⟨_, ⟨⟨r, hr, rfl⟩, fun hnil => ?_⟩, rfl⟩, hapi⟩, hne _ hapi⟩
    exact hne _ hapi (by rw [suggestion, hnil, hempty])

/-! ## Suggestions as templates -/

theorem ordinary_iff {c : Char} :
    ordinary c = true ↔ isSpace c = false ∧ c ∉ special := by
  simp [ordinary]

/-- What a text with placeholders is free of. -/
theorem clean_of_mem {s : List Char} (h : PathSegment s) {c : Char} (hc : c ∈ s) :
    isSpace c = false ∧ c ∉ ['^', '$', '?', '\\', '('] := by
  have hord : ∀ {d}, ordinary d = true → isSpace d = false ∧ d ∉ ['^', '$', '?', '\\', '('] := by
    intro d hd
    obtain ⟨hspace, hmem⟩ := ordinary_iff.mp hd
    exact ⟨hspace, fun hm => hmem ((by decide : ['^', '$', '?', '\\', '('] ⊆ special) hm)⟩
  rw [← text_pieces s, text, List.mem_flatMap] at hc
  obtain ⟨p, hp, hcp⟩ := hc
  have hpiece := h p hp
  cases p with
  | char d =>
    rw [Piece.text, List.mem_singleton] at hcp
    exact hcp ▸ hord hpiece
  | hole name =>
    rw [Piece.text, List.mem_cons, List.mem_append, List.mem_singleton] at hcp
    obtain rfl | hname | rfl := hcp
    · decide
    · exact hord (hpiece.2 c hname).1
    · decide

theorem PathPiece.readable {p : Piece} (h : PathPiece p) : p.Readable := by
  cases p with
  | char c => exact fun hc => (ordinary_iff.mp h).2 (hc ▸ by decide)
  | hole name => exact ⟨h.1, fun hc => (ordinary_iff.mp (h.2 _ hc).1).2 (by decide)⟩

theorem PathPiece.literal {p : Piece} (h : PathPiece p) : p.Literal := by
  cases p with
  | char c =>
    exact fun hc => (ordinary_iff.mp h).2 ((by decide : ['*', '?', '['] ⊆ special) hc)
  | hole name => trivial

theorem PathPiece.free {p : Piece} (h : PathPiece p) : p.Free '/' := by
  cases p with
  | char c => trivial
  | hole name => exact fun hc => (h.2 _ hc).2 rfl

/-- A text with placeholders is normalised by one slash in front and none that is double. -/
theorem normalizeSuggestion_eq {U : Unicode} {s : List Char} (hne : s ≠ [])
    (h : ∀ c ∈ s, isSpace c = false ∧ c ∉ ['^', '$', '?', '\\', '(']) :
    normalizeSuggestion U s = squeeze '/' ('/' :: s) := by
  have hspace : ∀ c ∈ s, isSpace c = false := fun c hc => (h c hc).1
  have hnot : ∀ c ∈ ['^', '$', '?', '\\', '('], c ∉ s := fun c hc hs => (h c hs).2 hc
  rw [normalizeSuggestion, stripRegexAnchors_eq_self hspace (hnot _ (by decide))
    (hnot _ (by decide)), replace_of_not_mem _ _ _ _ (hnot _ (by decide)),
    sub_regexGroup (hnot _ (by decide)), normalizePath_eq hne hspace (hnot _ (by decide))]

/-- The suggestion for a route is the framework's own text for it, normalised. -/
theorem suggestion_eq {U : Unicode} {r : Route} (hpath : ∀ segment ∈ r, PathSegment segment)
    (hends : ∀ segment ∈ r.dropLast, Ends segment) (hne : r.flatten ≠ []) :
    suggestion U r = squeeze '/' ('/' :: r.flatten) := by
  have hjoin : squeeze '/' (r.foldl joinPaths []) = squeeze '/' r.flatten :=
    squeeze_foldl_joinPaths hends (.inl rfl)
  have hmem : ∀ c, c ∈ r.foldl joinPaths [] ↔ c ∈ r.flatten := fun c => by
    rw [← mem_squeeze (a := '/'), hjoin, mem_squeeze]
  have hclean : ∀ c ∈ r.foldl joinPaths [], isSpace c = false ∧ c ∉ ['^', '$', '?', '\\', '('] := by
    intro c hc
    obtain ⟨segment, hs, hcs⟩ := List.mem_flatten.mp ((hmem c).mp hc)
    exact clean_of_mem (hpath segment hs) hcs
  have hne' : r.foldl joinPaths [] ≠ [] := by
    obtain ⟨c, hc⟩ := List.exists_mem_of_ne_nil _ hne
    exact List.ne_nil_of_mem ((hmem c).mpr hc)
  rw [suggestion, normalizeSuggestion_eq hne' hclean, squeeze_cons, hjoin, ← squeeze_cons]

/-- A template that starts with a slash and has no two of them together. -/
structure Normal (s : List Char) : Prop where
  path : PathSegment s
  slash : s.head? = some '/'
  single : squeeze '/' s = s

theorem pieces_squeeze {t : List Piece} (h : ∀ p ∈ t, PathPiece p) :
    pieces (squeeze '/' (text t)) = squeeze (.char '/') t := by
  rw [← text_squeeze (by decide) fun p hp => (h p hp).free,
    pieces_text fun p hp => (h p (mem_squeeze.mp hp)).readable]

theorem normal_suggestion {U : Unicode} {r : Route} (hpath : ∀ segment ∈ r, PathSegment segment)
    (hends : ∀ segment ∈ r.dropLast, Ends segment) (hne : r.flatten ≠ []) :
    Normal (suggestion U r) := by
  have htext : '/' :: r.flatten = text (.char '/' :: r.flatMap pieces) := by
    rw [text_cons, text_flatMap_pieces]
    rfl
  rw [suggestion_eq hpath hends hne]
  refine ⟨?_, head?_squeeze _, squeeze_squeeze _⟩
  have hpieces : ∀ p ∈ Piece.char '/' :: r.flatMap pieces, PathPiece p := by
    intro p hp
    obtain rfl | hp := List.mem_cons.mp hp
    · decide
    · obtain ⟨segment, hs, hp⟩ := List.mem_flatMap.mp hp
      exact hpath segment hs p hp
  rw [PathSegment, htext, pieces_squeeze hpieces]
  exact fun p hp => hpieces p (mem_squeeze.mp hp)

/-! ## Matching -/

/-- The substitution of placeholders finds the pieces of a text. -/
theorem subFrom_converter (k : Nat) (s : List Char) :
    subFrom converter (fun _ => ['*']) k s = (piecesFrom k s).map Piece.wildcard := by
  induction s generalizing k with
  | nil => cases k <;> rfl
  | cons c s ih =>
    cases k with
    | succ k => exact ih k
    | zero =>
      rw [subFrom, piecesFrom]
      by_cases hc : c = '<'
      · subst hc
        by_cases h : s.takeWhile (· ≠ '>') ≠ [] ∧ '>' ∈ s
        · simp only [converter, ih, ne_eq, h, not_false_eq_true, and_self, if_true]
          rfl
        · simp only [converter, if_neg h, ih, true_and]
          rfl
      · have hnone : converter (c :: s) = none := by
          rw [converter]
          rintro rest ⟨⟩
          exact hc rfl
        rw [hnone, if_neg fun h => hc h.1, ih]
        rfl

/-- With stars for the placeholders it is still normal. -/
theorem normalizePath_wildcard {s : List Char} (h : Normal s) :
    normalizePath ((pieces s).map Piece.wildcard) = (pieces s).map Piece.wildcard := by
  obtain ⟨t, hs⟩ := List.head?_eq_some_iff.mp h.slash
  have hhead : ((pieces s).map Piece.wildcard).head? = some '/' := by
    rw [hs]
    exact congrArg (fun ps => (ps.map Piece.wildcard).head?)
      (pieces_cons (p := .char '/') (by decide : '/' ≠ '<') t)
  have hclean : ∀ c ∈ (pieces s).map Piece.wildcard, isSpace c = false ∧ c ≠ '?' := by
    intro c hc
    obtain ⟨p, hp, rfl⟩ := List.mem_map.mp hc
    cases p with
    | char d =>
      obtain ⟨hspace, hmem⟩ := ordinary_iff.mp (h.path _ hp)
      exact ⟨hspace, fun hd : d = '?' => hmem (hd ▸ by decide)⟩
    | hole name => exact ⟨(by decide : isSpace '*' = false), (by decide : '*' ≠ '?')⟩
  have hslash : ∀ p : Piece, p.wildcard = '/' ↔ p = .char '/' := by
    intro p
    cases p with
    | char c => simp [Piece.wildcard]
    | hole name => simp [Piece.wildcard]
  have hsingle : squeeze (.char '/') (pieces s) = pieces s := by
    rw [← pieces_squeeze h.path, text_pieces, h.single]
  have hne : (pieces s).map Piece.wildcard ≠ [] := by
    intro hnil
    rw [hnil] at hhead
    cases hhead
  rw [normalizePath_eq hne (fun c hc => (hclean c hc).1) fun hc => (hclean _ hc).2 rfl,
    squeeze_cons_head hhead, squeeze_map hslash, hsingle]

theorem parse_normal {U : Unicode} {s : List Char} (h : Normal s) :
    parseEndpointPattern U s = some ⟨none, (pieces s).map Piece.wildcard⟩ := by
  have hclean := fun c (hc : c ∈ s) => clean_of_mem h.path hc
  have hnot : ∀ c ∈ ['^', '$', '?', '\\', '('], c ∉ s := fun c hc hs => (hclean c hs).2 hc
  have hspace : ∀ c ∈ s, isSpace c = false := fun c hc => (hclean c hc).1
  obtain ⟨t, hs⟩ := List.head?_eq_some_iff.mp h.slash
  have hne : s ≠ [] := by simp [hs]
  have hmethod : methodMatch s = none := hs ▸ methodMatch_slash t
  have hwild : placeholderToWildcard U s = (pieces s).map Piece.wildcard := by
    rw [placeholderToWildcard, stripRegexAnchors_eq_self hspace (hnot _ (by decide))
      (hnot _ (by decide)), sub_regexGroup (hnot _ (by decide))]
    exact subFrom_converter 0 s
  have hwne : (pieces s).map Piece.wildcard ≠ [] := by
    intro hnil
    rw [List.map_eq_nil_iff] at hnil
    exact hne (by rw [← text_pieces s, hnil, text_nil])
  simp only [parseEndpointPattern, strip_of_forall hspace, if_neg hne, hmethod, hwild,
    normalizePath_wildcard h, if_neg hwne]

/-- A normal pattern takes an endpoint by its route or by its path, as a template with any
text for a placeholder. -/
theorem endpointMatchesEvent_iff {U : Unicode} {t : EventType}
    (h : ∀ s ∈ t.endpoints, Normal s) (e : Endpoint) :
    endpointMatchesEvent U t e = true ↔ ∃ s ∈ t.endpoints,
      Fills anything (pieces s) (normalizePath e.route) ∨
        Fills anything (pieces s) (normalizePath e.path) := by
  rw [endpointMatchesEvent, List.any_eq_true]
  refine exists_congr fun s => and_congr_right fun hs => ?_
  have hliteral : ∀ p ∈ pieces s, p.Literal := fun p hp => ((h s hs).path p hp).literal
  rw [parse_normal (h s hs), Option.any_some, endpointMatchesPattern, Option.all_none,
    Bool.true_and, Bool.or_eq_true, fnmatch_wildcard hliteral, fnmatch_wildcard hliteral]

theorem find_apiEventTypes {U : Unicode} {now : Monotonic} {e : Endpoint}
    (he : e.kind = .api) {ip : Option (List Char)} {stored : Table EventType} {cache : Cache}
    (hcache : Current U stored cache) :
    (findMatchingEventType U now e ip stored cache).1 = (apiEventTypes U stored).find? fun t =>
      endpointMatchesEvent U t e && ipAllowedForEvent t ip := by
  have hread : (getEventTypesForKind U now .api stored cache).1 = apiEventTypes U stored := by
    rw [getEventTypesForKind]
    cases hc : cache .api with
    | none => rfl
    | some entry =>
      obtain ⟨since, eventTypes⟩ := entry
      dsimp only
      split
      · exact hcache since eventTypes hc
      · rfl
  rw [findMatchingEventType, he, ← hread]

theorem mem_apiEventTypes {U : Unicode} {stored : Table EventType} {t : EventType} :
    t ∈ apiEventTypes U stored ↔ t ∈ stored ∧ t.kind = .api := by
  simp only [apiEventTypes, List.mem_insertionSort, List.mem_filter, decide_eq_true_eq]
  rfl

/-- Two searches of which the second finds no more than the first agree exactly when the
first finds nothing earlier. -/
theorem find?_eq_find?_iff {p q : α → Bool} {l : List α} (h : ∀ a ∈ l, q a = true → p a = true) :
    l.find? p = l.find? q ↔ ∀ a ∈ l.takeWhile (! q ·), p a = false := by
  induction l with
  | nil => simp
  | cons a l ih =>
    have hl := ih fun b hb => h b (List.mem_cons_of_mem a hb)
    cases hq : q a with
    | true => simp [hq, h a List.mem_cons_self hq]
    | false =>
      cases hp : p a with
      | false => simpa [hq, hp] using hl
      | true =>
        have hne : l.find? q ≠ some a := by
          intro hf
          rw [List.find?_some hf] at hq
          cases hq
        simp [hq, hp, hne.symm]

/-! ## Requests -/

/-- The route of a resolved request is, when normalised, the suggestion for it. -/
theorem normalizePath_route {U : Unicode} {routing : Routing} {r : Route}
    (hpath : ∀ segment ∈ r, PathSegment segment) (hends : ∀ segment ∈ r.dropLast, Ends segment)
    (hne : r.flatten ≠ []) {request : Request} (hroute : request.route = some (routing.route r))
    (fallback : List Char) :
    normalizePath (resolveRoute request fallback) = suggestion U r := by
  have hclean : ∀ c ∈ '/' :: r.flatten, isSpace c = false ∧ c ∉ ['^', '$', '?', '\\', '('] := by
    intro c hc
    obtain rfl | hc := List.mem_cons.mp hc
    · decide
    · obtain ⟨segment, hs, hcs⟩ := List.mem_flatten.mp hc
      exact clean_of_mem (hpath segment hs) hcs
  have hspace : ∀ c ∈ '/' :: r.flatten, isSpace c = false := fun c hc => (hclean c hc).1
  have hquery : '?' ∉ '/' :: r.flatten := fun hc => (hclean _ hc).2 (by decide)
  rw [suggestion_eq hpath hends hne, resolveRoute, hroute, Option.getD_some,
    routing.route_eq r hpath, if_neg hne]
  split
  · exact normalizePath_eq hne (fun c hc => hspace c (List.mem_cons_of_mem _ hc))
      fun hc => hquery (List.mem_cons_of_mem _ hc)
  · rw [normalizePath_eq (List.cons_ne_nil _ _) hspace hquery, squeeze_cons_self]

theorem flatten_ne_nil {U : Unicode} {r : Route} (h : isApi (suggestion U r) = true) :
    r.flatten ≠ [] := by
  intro hnil
  have hfold : ∀ r : Route, r.flatten = [] → r.foldl joinPaths [] = [] := by
    intro r hr
    induction r with
    | nil => rfl
    | cons segment r ih =>
      obtain ⟨rfl, hr⟩ := List.append_eq_nil_iff.mp hr
      exact ih hr
  rw [suggestion, hfold r hnil] at h
  cases h

section
variable {U : Unicode} {urlPatterns : List Url} (hurls : PathRoutes U urlPatterns)
include hurls

/-- Every suggestion for the API is a normal template. -/
theorem normal_of_suggested {t : EventType} (ht : Suggested U urlPatterns t) :
    ∀ s ∈ t.endpoints, Normal s := by
  intro s hs
  obtain ⟨r, hr, rfl, hapi⟩ := mem_suggestions.mp (ht.endpoints s hs)
  obtain ⟨hpath, hends⟩ := hurls r hr hapi
  exact normal_suggestion hpath hends (flatten_ne_nil hapi)

/-- An event type whose suggestion ends in a placeholder takes all that is asked for below. -/
theorem takes_below {t : EventType} (ht : Suggested U urlPatterns t) {s : List Char}
    (hs : s ∈ t.endpoints) {u : List Piece} {name rest : List Char}
    (hu : pieces s = u ++ [.hole name]) {e : Endpoint}
    (he : normalizePath e.path = text u ++ rest) : endpointMatchesEvent U t e = true := by
  refine (endpointMatchesEvent_iff (normal_of_suggested hurls ht) e).mpr ⟨s, hs, .inr ?_⟩
  rw [hu, he]
  exact fills_hole_end (fills_text u) name rest

/-- A request is recorded under the first event type that lists its route's own suggestion,
and under none when no one does, exactly when no event type before that takes it by another. -/
theorem recorded_own_iff {routing : Routing} {stored : Table EventType} {cache : Cache}
    (hcache : Current U stored cache)
    (hstored : ∀ t ∈ stored, t.kind = .api → Suggested U urlPatterns t) {request : Request}
    {r : Route} (hr : routing.resolve urlPatterns (requestPath request) = some r)
    (hroute : request.route = some (routing.route r)) (hapi : isApi (suggestion U r) = true)
    (now : Monotonic) (ip : Option (List Char)) :
    (findMatchingEventType U now (apiEndpoint request (requestPath request)) ip stored cache).1 =
        (apiEventTypes U stored).find? (suggestion U r ∈ ·.endpoints) ↔
      Undisturbed U stored (suggestion U r) (requestPath request) := by
  obtain ⟨hpath, hends⟩ := hurls r (routing.mem _ _ _ hr) hapi
  have hown := normalizePath_route (U := U) hpath hends (flatten_ne_nil hapi) hroute
    (requestPath request)
  have hsuggested : ∀ t ∈ apiEventTypes U stored, Suggested U urlPatterns t := fun t ht =>
    hstored t (mem_apiEventTypes.mp ht).1 (mem_apiEventTypes.mp ht).2
  have hallowed : ∀ t ∈ apiEventTypes U stored, ipAllowedForEvent t ip = true := fun t ht => by
    simp [ipAllowedForEvent, (hsuggested t ht).whitelist, (hsuggested t ht).blacklist]
  have htakes : ∀ t ∈ apiEventTypes U stored,
      (endpointMatchesEvent U t (apiEndpoint request (requestPath request)) &&
        ipAllowedForEvent t ip) = true ↔ ∃ s ∈ t.endpoints,
          Fills anything (pieces s) (suggestion U r) ∨
            Fills anything (pieces s) (normalizePath (requestPath request)) := by
    intro t ht
    rw [hallowed t ht, Bool.and_true,
      endpointMatchesEvent_iff (normal_of_suggested hurls (hsuggested t ht)), ← hown]
    rfl
  rw [find_apiEventTypes rfl hcache, find?_eq_find?_iff]
  · simp only [Undisturbed, decide_not]
    refine forall_congr' fun t => imp_congr_right fun ht => ?_
    rw [← Bool.not_eq_true, htakes t ((List.takeWhile_subset _) ht)]
    simp only [not_exists, not_and, not_or]
  · intro t ht hlists
    have hself := fills_text (pieces (suggestion U r))
    rw [text_pieces] at hself
    exact (htakes t ht).mpr ⟨suggestion U r, of_decide_eq_true hlists, .inl hself⟩

end

/-! ## The routes of the site -/

/-- The operations in `keywarden/api/routers`. -/
def operations : List String :=
  ["system/health", "user/me", "audit/event-types", "audit/logs", "servers/",
    "servers/<server_id>", "users/", "users/<user_id>", "keys/", "keys/<key_id>",
    "keys/<key_id>/certificate", "keys/<key_id>/certificate.sha256", "access-requests/",
    "access-requests/<request_id>", "telemetry/", "telemetry/summary", "agent/enroll",
    "agent/servers/<server_id>/authorized-keys", "agent/servers/<server_id>/accounts",
    "agent/servers/<server_id>/ssh-ca", "agent/servers/<server_id>/sync-report",
    "agent/servers/<server_id>/logs", "agent/servers/<server_id>/heartbeat"]

def registerRouters : List Url := operations.map fun route => .pattern route.toList

/-- The part of `urlpatterns` that is under `api/`. -/
def urlpatterns : List Url :=
  [.resolver "api/".toList registerRouters, .resolver "api/v1/".toList registerRouters,
    .pattern "api/auth/jwt/create/".toList, .pattern "api/auth/jwt/refresh/".toList]

/-- A path is resolved by the first route that it is, the placeholders filled. -/
def firstFit : Routing where
  resolve urlPatterns path :=
    match path with
    | '/' :: rest => (routes urlPatterns).find? fun r => Fills converts (r.flatMap pieces) rest
    | _ => none
  route := List.flatten
  mem urlPatterns path r h := by
    split at h
    · exact List.mem_of_find?_eq_some h
    · cases h
  fills urlPatterns path r h _ := by
    split at h
    · exact ⟨_, rfl, of_decide_eq_true (List.find?_some h :)⟩
    · cases h
  route_eq _ _ := rfl

theorem routes_registerRouters :
    routes registerRouters = operations.map fun route => [route.toList] := rfl

theorem pathSegment_operations : ∀ route ∈ operations, PathSegment route.toList := by
  decide +kernel

theorem pathRoutes_urlpatterns (U : Unicode) : PathRoutes U urlpatterns := by
  intro r hr _
  have hunder : ∀ segment : List Char, PathSegment segment → Ends segment →
      r ∈ (routes registerRouters).map (segment :: ·) →
        (∀ s ∈ r, PathSegment s) ∧ ∀ s ∈ r.dropLast, Ends s := by
    intro segment hpath hends hmem
    rw [routes_registerRouters] at hmem
    obtain ⟨_, hroute, rfl⟩ := List.mem_map.mp hmem
    obtain ⟨route, hop, rfl⟩ := List.mem_map.mp hroute
    refine ⟨fun s hs => ?_, fun s hs => ?_⟩
    · obtain rfl | hs := List.mem_cons.mp hs
      · exact hpath
      · exact List.mem_singleton.mp hs ▸ pathSegment_operations route hop
    · exact List.mem_singleton.mp hs ▸ hends
  have halone : ∀ segment : List Char, PathSegment segment → r ∈ [[segment]] →
      (∀ s ∈ r, PathSegment s) ∧ ∀ s ∈ r.dropLast, Ends s := by
    intro segment hpath hmem
    obtain rfl := List.mem_singleton.mp hmem
    exact ⟨fun s hs => List.mem_singleton.mp hs ▸ hpath, fun s hs => nomatch hs⟩
  simp only [urlpatterns, routes, routesOf, List.mem_append, List.append_nil] at hr
  obtain hr | hr | hr | hr := hr
  · exact hunder _ (by decide +kernel) (by decide) hr
  · exact hunder _ (by decide +kernel) (by decide) hr
  · exact halone _ (by decide +kernel) hr
  · exact halone _ (by decide +kernel) hr

/-- A request for one key. -/
def keyRequest (method path route : String) : Request where
  method := method.toList
  pathInfo := path.toList
  path := path.toList
  route := some route.toList

def keyRoute : Route := ["api/v1/".toList, "keys/<key_id>".toList]
def certificateRoute : Route := ["api/v1/".toList, "keys/<key_id>/certificate".toList]

def keyEvents : EventType where
  id := 1
  key := "key".toList
  endpoints := [suggestion .ascii keyRoute]

def certificateEvents : EventType where
  id := 2
  key := "certificate".toList
  endpoints := [suggestion .ascii certificateRoute]

def issue : Request :=
  keyRequest "POST" "/api/v1/keys/5/certificate" "api/v1/keys/<key_id>/certificate"

theorem current_clear (U : Unicode) (stored : Table EventType) : Current U stored .clear := by
  rintro since eventTypes ⟨⟩

theorem mem_suggestions_of_route {U : Unicode} {urlPatterns : List Url} {r : Route}
    (hr : r ∈ routes urlPatterns) (hapi : isApi (suggestion U r) = true) :
    ∀ s ∈ [suggestion U r], s ∈ listApiEndpointSuggestions U urlPatterns := by
  intro s hs
  obtain rfl := List.mem_singleton.mp hs
  exact mem_suggestions.mpr ⟨r, hr, rfl, hapi⟩

theorem suggested_keyEvents : Suggested .ascii urlpatterns keyEvents :=
  ⟨rfl, rfl, mem_suggestions_of_route (by decide +kernel) (by decide +kernel)⟩

theorem suggested_certificateEvents : Suggested .ascii urlpatterns certificateEvents :=
  ⟨rfl, rfl, mem_suggestions_of_route (by decide +kernel) (by decide +kernel)⟩

/-- In the order of the keys the event type of certificates is the first. -/
def bothEvents : Table EventType := (Table.empty.insert keyEvents).insert certificateEvents

theorem suggested_bothEvents :
    ∀ t ∈ bothEvents, t.kind = .api → Suggested .ascii urlpatterns t := by
  intro t ht _
  obtain rfl | rfl : t = keyEvents ∨ t = certificateEvents := by
    simpa [Table.mem_def] using show t ∈ [keyEvents, certificateEvents] from ht
  · exact suggested_keyEvents
  · exact suggested_certificateEvents

theorem resolve_issue :
    firstFit.resolve urlpatterns (requestPath issue) = some certificateRoute := by decide +kernel

theorem recorded_own_certificate :
    (findMatchingEventType .ascii 0 (apiEndpoint issue (requestPath issue)) none bothEvents
        .clear).1 =
      (apiEventTypes .ascii bothEvents).find? (suggestion .ascii certificateRoute ∈ ·.endpoints) :=
  (recorded_own_iff (pathRoutes_urlpatterns _) (current_clear _ _) suggested_bothEvents resolve_issue
    rfl (by decide +kernel) 0 none).mpr (by decide +kernel)

/-- With the event type of single keys only, which does not list the route, a request for a
certificate is recorded under it. -/
theorem recorded_as_key :
    ¬ ∀ (U : Unicode) (urlPatterns : List Url), PathRoutes U urlPatterns →
      ∀ (routing : Routing) (stored : Table EventType) (cache : Cache), Current U stored cache →
        (∀ t ∈ stored, t.kind = .api → Suggested U urlPatterns t) →
      ∀ (request : Request) (r : Route),
        routing.resolve urlPatterns (requestPath request) = some r →
        request.route = some (routing.route r) → isApi (suggestion U r) = true →
      ∀ (now : Monotonic) (ip : Option (List Char)),
        (findMatchingEventType U now (apiEndpoint request (requestPath request)) ip stored
            cache).1 =
          (apiEventTypes U stored).find? (suggestion U r ∈ ·.endpoints) := by
  intro hclaim
  have hstored : ∀ t ∈ Table.empty.insert keyEvents, t.kind = .api →
      Suggested .ascii urlpatterns t := by
    intro t ht _
    obtain rfl : t = keyEvents := by
      simpa [Table.mem_def] using show t ∈ [keyEvents] from ht
    exact suggested_keyEvents
  have hresult := hclaim .ascii urlpatterns (pathRoutes_urlpatterns _) firstFit
    (Table.empty.insert keyEvents) .clear (current_clear _ _) hstored issue certificateRoute
    resolve_issue rfl (by decide +kernel) 0 none
  have hnone : (apiEventTypes .ascii (Table.empty.insert keyEvents)).find?
      (suggestion .ascii certificateRoute ∈ ·.endpoints) = none := by decide +kernel
  have hkey : (findMatchingEventType .ascii 0 (apiEndpoint issue (requestPath issue)) none
      (Table.empty.insert keyEvents) .clear).1 = some keyEvents := by decide +kernel
  rw [hnone, hkey] at hresult
  cases hresult

end Keywarden.AuditSuggestions
