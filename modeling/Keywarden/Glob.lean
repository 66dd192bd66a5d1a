import Mathlib.Data.List.Basic

/-!
# Shell patterns

Matching of a name against a pattern with `*`, `?` and sets in brackets, as Python's
`fnmatch` does it on a system where case and separators stand for themselves.
-/
namespace Glob

/-- The characters from the first to the last; none when they are the wrong way round. -/
structure Range where
  first : Char
  last : Char
  deriving DecidableEq, Repr

def Range.contains (r : Range) (c : Char) : Bool := r.first ≤ c && c ≤ r.last

inductive Token where
  | star
  | one
  | literal (c : Char)
  | set (negated : Bool) (ranges : List Range)
  deriving DecidableEq, Repr

/-- What stands in the brackets of a set that is closed. An exclamation mark and then a
bracket at the start do not close it. -/
def setBody (s : List Char) : Option (List Char) :=
  let bang := s.takeWhile (· = '!') |>.take 1
  let bracket := s.drop bang.length |>.takeWhile (· = ']') |>.take 1
  let rest := s.drop (bang.length + bracket.length)
  if ']' ∈ rest then some (bang ++ bracket ++ rest.takeWhile (· ≠ ']')) else none

/-- A hyphen between two characters makes a range of them. -/
def ranges : List Char → List Range
  | a :: '-' :: b :: s => ⟨a, b⟩ :: ranges s
  | a :: s => ⟨a, a⟩ :: ranges s
  | [] => []

def setToken : List Char → Token
  | '!' :: body => .set true (ranges body)
  | body => .set false (ranges body)

/-- The tokens of a pattern; the first argument counts the characters of a set that are
still to be passed over. -/
def tokensFrom : Nat → List Char → List Token
  | _, [] => []
  | k + 1, _ :: cs => tokensFrom k cs
  | 0, '*' :: cs => .star :: tokensFrom 0 cs
  | 0, '?' :: cs => .one :: tokensFrom 0 cs
  | 0, '[' :: cs =>
    match setBody cs with
    | some body => setToken body :: tokensFrom (body.length + 1) cs
    | none => .literal '[' :: tokensFrom 0 cs
  | 0, c :: cs => .literal c :: tokensFrom 0 cs

def tokens (pattern : List Char) : List Token := tokensFrom 0 pattern

def accepts : List Token → List Char → Bool
  | [], name => name.isEmpty
  | .star :: ts, name => name.tails.any (accepts ts)
  | .one :: ts, name => !name.isEmpty && accepts ts name.tail
  | .literal c :: ts, name => name.head? = some c && accepts ts name.tail
  | .set negated ranges :: ts, name =>
    name.head?.any (fun c => ranges.any (·.contains c) != negated) && accepts ts name.tail

/-- `fnmatch.fnmatch(name, pattern)`. -/
def fnmatch (name pattern : List Char) : Bool := accepts (tokens pattern) name

end Glob
