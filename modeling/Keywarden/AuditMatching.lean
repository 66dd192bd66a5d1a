import Mathlib.Data.Char
import Mathlib.Data.List.Infix
import Mathlib.Data.List.Lex
import Mathlib.Data.List.Sort
import Keywarden.Glob
import Keywarden.IpAddress
import Keywarden.Rows
import Keywarden.Text

/-!
# Which event type a request is recorded under

`apps/audit/matching.py`. An event type lists patterns of endpoints, which are written as
paths, with or without a method, as the routes of the framework or as regular expressions,
and it can be kept to or from addresses. The first event type in the order of the keys that
takes the request is the one; the catalog is read again when it is 15 seconds old.
-/
namespace Keywarden.AuditMatching

open Rows Text

/-- What the language and the database know of characters. -/
structure Unicode where
  /-- `\w` of a regular expression. -/
  isWord : Char → Bool
  /-- `str.isdigit` on one character. -/
  isDigit : Char → Bool
  /-- `str.upper`. -/
  upper : List Char → List Char
  /-- The first text does not come after the second. -/
  collates : List Char → List Char → Bool

/-- Right on texts of ASCII characters. -/
def Unicode.ascii : Unicode where
  isWord c := c.isAlphanum || c = '_'
  isDigit := Char.isDigit
  upper s := s.map Char.toUpper
  collates s t := decide (s ≤ t)

inductive Kind where
  | api | websocket
  deriving DecidableEq, Repr

inductive Severity where
  | info | warning | error | critical
  deriving DecidableEq, Repr

abbrev EventTypeId := Nat

/-- `AuditEventType`, less its title, description and date, which nothing here reads. -/
structure EventType where
  id : EventTypeId
  key : List Char
  kind : Kind := .api
  defaultSeverity : Severity := .info
  endpoints : List (List Char) := []
  ipWhitelistEnabled : Bool := false
  ipWhitelist : List (List Char) := []
  ipBlacklistEnabled : Bool := false
  ipBlacklist : List (List Char) := []
  deriving DecidableEq, Repr

instance : Keyed EventType EventTypeId := ⟨EventType.id⟩

/-! ## Patterns of endpoints -/

/-- `while "//" in s: s = s.replace("//", "/")`, for so many rounds at most. -/
def collapse : Nat → List Char → List Char
  | 0, s => s
  | rounds + 1, s =>
    if ['/', '/'] <:+: s then collapse rounds (replace ['/', '/'] ['/'] s) else s

def normalizePath (value : List Char) : List Char :=
  let candidate := strip isSpace value
  if candidate = [] then []
  else
    let candidate := candidate.takeWhile (· ≠ '?')
    let candidate := if candidate.head? = some '/' then candidate else '/' :: candidate
    collapse candidate.length candidate

def stripRegexAnchors (value : List Char) : List Char :=
  let candidate := strip isSpace value
  let candidate := if candidate.head? = some '^' then candidate.tail else candidate
  if candidate.getLast? = some '$' then candidate.dropLast else candidate

/-- What a regular expression matches at the start of a text: how long it is, and the
text of its group. -/
abbrev Match := Option (Nat × List Char)

/-- Substitution in progress; the first argument counts the characters of a match that
are still to be passed over. -/
def subFrom (pattern : List Char → Match) (rep : List Char → List Char) :
    Nat → List Char → List Char
  | _, [] => []
  | k + 1, _ :: cs => subFrom pattern rep k cs
  | 0, c :: cs =>
    match pattern (c :: cs) with
    | some (n, group) => rep group ++ subFrom pattern rep (n - 1) cs
    | none => c :: subFrom pattern rep 0 cs

/-- `pattern.sub(rep, s)`. -/
def sub (pattern : List Char → Match) (rep : List Char → List Char) (s : List Char) : List Char :=
  subFrom pattern rep 0 s

/-- `_REGEX_GROUP_RE` is `\(\?P<(?P<name>\w+)>[^)]+\)`. -/
def regexGroup (U : Unicode) (s : List Char) : Match :=
  if "(?P<".toList.isPrefixOf s then
    let name := (s.drop 4).takeWhile U.isWord
    match (s.drop 4).dropWhile U.isWord with
    | '>' :: rest =>
      let body := rest.takeWhile (· ≠ ')')
      if name ≠ [] ∧ body ≠ [] ∧ ')' ∈ rest then some (name.length + body.length + 6, name)
      else none
    | _ => none
  else none

/-- `_CONVERTER_RE` is `<(?:(?P<converter>[^:>]+):)?(?P<name>[^>]+)>`; no one asks for its
groups. -/
def converter : List Char → Match
  | '<' :: rest =>
    let body := rest.takeWhile (· ≠ '>')
    if body ≠ [] ∧ '>' ∈ rest then some (body.length + 2, []) else none
  | _ => none

def placeholderToWildcard (U : Unicode) (value : List Char) : List Char :=
  sub converter (fun _ => ['*']) (sub (regexGroup U) (fun _ => ['*']) (stripRegexAnchors value))

def methods : List (List Char) :=
  ["GET", "POST", "PUT", "PATCH", "DELETE", "OPTIONS", "HEAD"].map String.toList

/-- One letter when case is ignored, for a capital letter of `methods`. -/
def sameLetter (letter c : Char) : Bool :=
  c = letter || c = letter.toLower || (letter = 'I' && (c = 'İ' || c = 'ı')) ||
    (letter = 'S' && c = 'ſ')

/-- The groups of `_METHOD_RE`, the seven methods with `\s+(.+)$` after them, in a text
that does not end in space. -/
def methodMatch (raw : List Char) : Option (List Char × List Char) :=
  let starts (method : List Char) :=
    decide (method.length ≤ raw.length) && (method.zip raw).all fun (letter, c) => sameLetter letter c
  (methods.find? starts).bind fun method =>
    let rest := raw.drop method.length
    let endpoint := rest.dropWhile isSpace
    if rest.head?.any isSpace ∧ endpoint ≠ [] ∧ '\n' ∉ endpoint then
      some (raw.take method.length, endpoint)
    else none

structure ParsedEndpointPattern where
  method : Option (List Char)
  pattern : List Char
  deriving DecidableEq, Repr

def parseEndpointPattern (U : Unicode) (rawPattern : List Char) : Option ParsedEndpointPattern :=
  let raw := strip isSpace rawPattern
  if raw = [] then none
  else
    let (method, endpoint) := match methodMatch raw with
      | some (method, endpoint) => (some (U.upper method), endpoint)
      | none => (none, raw)
    let endpoint := normalizePath (placeholderToWildcard U endpoint)
    if endpoint = [] then none else some ⟨method, endpoint⟩

/-- Which endpoint is asked for. The route is the pattern that the path was resolved by. -/
structure Endpoint where
  kind : Kind
  method : List Char
  route : List Char
  path : List Char
  deriving DecidableEq, Repr

def endpointMatchesPattern (U : Unicode) (pattern : ParsedEndpointPattern) (e : Endpoint) : Bool :=
  pattern.method.all (· = U.upper e.method) &&
    (Glob.fnmatch (normalizePath e.route) pattern.pattern ||
      Glob.fnmatch (normalizePath e.path) pattern.pattern)

def endpointMatchesEvent (U : Unicode) (eventType : EventType) (e : Endpoint) : Bool :=
  eventType.endpoints.any fun raw =>
    (parseEndpointPattern U raw).any fun pattern => endpointMatchesPattern U pattern e

/-! ## Addresses -/

inductive IpEntry where
  | address (a : IpAddress.Address)
  | network (n : IpAddress.Network)
  deriving DecidableEq, Repr

def parseIpEntry (entry : List Char) : Option IpEntry :=
  let raw := strip isSpace entry
  if raw = [] then none
  else if '/' ∈ raw then (IpAddress.parseNetwork raw).map .network
  else (IpAddress.parse raw).map .address

def ipInEntries (ip : List Char) (entries : List (List Char)) : Bool :=
  (IpAddress.parse ip).any fun candidate => entries.any fun entry =>
    match parseIpEntry entry with
    | none => false
    | some (.network n) => n.contains candidate
    | some (.address a) => candidate = a

def ipAllowedForEvent (eventType : EventType) (ip : Option (List Char)) : Bool :=
  let ip := ip.getD []
  if ip = [] then !eventType.ipWhitelistEnabled
  else if eventType.ipWhitelistEnabled && !ipInEntries ip eventType.ipWhitelist then false
  else !(eventType.ipBlacklistEnabled && ipInEntries ip eventType.ipBlacklist)

/-! ## The catalog -/

/-- A reading of the monotonic clock, in nanoseconds. -/
abbrev Monotonic := Nat

def cacheTtl : Monotonic := 15 * 10 ^ 9

/-- What a process has in `_EVENT_TYPE_CACHE`. -/
abbrev Cache := Kind → Option (Monotonic × List EventType)

def Cache.clear : Cache := fun _ => none

def getEventTypesForKind (U : Unicode) (now : Monotonic) (kind : Kind) (stored : Table EventType)
    (cache : Cache) : List EventType × Cache :=
  let read :=
    (stored.rows.filter (·.kind = kind)).insertionSort fun a b => U.collates a.key b.key = true
  match cache kind with
  | some (since, eventTypes) =>
    if now - since < cacheTtl then (eventTypes, cache)
    else (read, Function.update cache kind (some (now, read)))
  | none => (read, Function.update cache kind (some (now, read)))

def findMatchingEventType (U : Unicode) (now : Monotonic) (e : Endpoint) (ip : Option (List Char))
    (stored : Table EventType) (cache : Cache) : Option EventType × Cache :=
  let (eventTypes, cache) := getEventTypesForKind U now e.kind stored cache
  (eventTypes.find? fun eventType =>
    endpointMatchesEvent U eventType e && ipAllowedForEvent eventType ip, cache)

/-! ## Paths have single slashes -/

/-- There are rounds enough: no two slashes are left next to each other. -/
theorem collapse_done {rounds : Nat} {s : List Char} (h : s.length ≤ rounds) :
    ¬ ['/', '/'] <:+: collapse rounds s := by
  induction rounds generalizing s with
  | zero =>
    rw [List.length_eq_zero_iff.mp (Nat.le_zero.mp h)]
    exact fun hinfix => nomatch List.infix_nil.mp hinfix
  | succ rounds ih =>
    rw [collapse]
    split
    · next hinfix =>
      have hlt := length_replace_lt ['/'] (by decide) hinfix
      exact ih (by omega)
    · next hinfix => exact hinfix

theorem squeeze_collapse (rounds : Nat) (s : List Char) :
    squeeze '/' (collapse rounds s) = squeeze '/' s := by
  induction rounds generalizing s with
  | zero => rfl
  | succ rounds ih =>
    rw [collapse]
    split
    · rw [ih, squeeze_replace]
    · rfl

/-- What the loop arrives at: each run of slashes is one slash. -/
theorem collapse_eq (s : List Char) : collapse s.length s = squeeze '/' s := by
  rw [← squeeze_collapse s.length, squeeze_eq_self (collapse_done (Nat.le_refl _))]

theorem normalizePath_eq {s : List Char} (hne : s ≠ []) (hspace : ∀ c ∈ s, isSpace c = false)
    (hquery : '?' ∉ s) : normalizePath s = squeeze '/' ('/' :: s) := by
  have htake : s.takeWhile (· ≠ '?') = s :=
    List.takeWhile_eq_self_iff.mpr fun c hc => by simpa using ne_of_mem_of_not_mem hc hquery
  simp only [normalizePath, strip_of_forall hspace, if_neg hne, htake, collapse_eq]
  split
  · next hhead => exact (squeeze_cons_head hhead).symm
  · rfl

/-! ## Substitution -/

theorem sub_eq_self {pattern : List Char → Match} {s : List Char}
    (h : ∀ c t, c :: t <:+ s → pattern (c :: t) = none) (rep : List Char → List Char) :
    sub pattern rep s = s := by
  induction s with
  | nil => rfl
  | cons c s ih =>
    have hs : sub pattern rep s = s := ih fun d t ht => h d t (ht.trans (List.suffix_cons c s))
    rw [sub, subFrom, h c s (List.suffix_refl _)]
    exact congrArg (c :: ·) hs

/-- A regular expression with a group has a parenthesis. -/
theorem sub_regexGroup {U : Unicode} {s : List Char} (h : '(' ∉ s)
    (rep : List Char → List Char) : sub (regexGroup U) rep s = s := by
  refine sub_eq_self (fun c t ht => ?_) rep
  have hc : c ≠ '(' := ne_of_mem_of_not_mem (ht.subset List.mem_cons_self) h
  have hpre : ¬ "(?P<".toList.isPrefixOf (c :: t) = true := by simp [hc.symm]
  rw [regexGroup, if_neg hpre]

theorem stripRegexAnchors_eq_self {s : List Char} (hspace : ∀ c ∈ s, isSpace c = false)
    (hstart : '^' ∉ s) (hend : '$' ∉ s) : stripRegexAnchors s = s := by
  have hhead : s.head? ≠ some '^' := fun h => hstart (List.mem_of_mem_head? h)
  have hlast : s.getLast? ≠ some '$' := fun h => hend (List.mem_of_getLast? h)
  simp only [stripRegexAnchors, strip_of_forall hspace, if_neg hhead, if_neg hlast]

/-- No method starts with a slash. -/
theorem methodMatch_slash (s : List Char) : methodMatch ('/' :: s) = none := by
  simp [methodMatch, methods, sameLetter]

end Keywarden.AuditMatching
