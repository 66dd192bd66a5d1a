import Mathlib.Data.List.Infix
import Mathlib.Data.List.Zip
import Keywarden.Glob
import Keywarden.Text

/-!
# Texts with placeholders

A template is a text in which `<name>` leaves a part of it open. What a part may be filled
with is a parameter, so that one template has several readings. Filled with any text at all
it is a shell pattern with a star for each placeholder.
-/
namespace Template

open Text

inductive Piece where
  | char (c : Char)
  | hole (name : List Char)
  deriving DecidableEq, Repr

def Piece.text : Piece → List Char
  | .char c => [c]
  | .hole name => '<' :: (name ++ ['>'])

def Piece.wildcard : Piece → Char
  | .char c => c
  | .hole _ => '*'

def text (t : List Piece) : List Char := t.flatMap Piece.text

/-- The pieces of a text; the first argument counts the characters of a placeholder that are
still to be passed over. A bracket that is not closed, or closed at once, is a character. -/
def piecesFrom : Nat → List Char → List Piece
  | _, [] => []
  | k + 1, _ :: cs => piecesFrom k cs
  | 0, c :: cs =>
    let name := cs.takeWhile (· ≠ '>')
    if c = '<' ∧ name ≠ [] ∧ '>' ∈ cs then .hole name :: piecesFrom (name.length + 1) cs
    else .char c :: piecesFrom 0 cs

def pieces (s : List Char) : List Piece := piecesFrom 0 s

/-- The text is the template with each placeholder filled by a text that is right for it. -/
inductive Fills (ok : List Char → List Char → Prop) : List Piece → List Char → Prop where
  | nil : Fills ok [] []
  | char (c : Char) {t : List Piece} {s : List Char} :
    Fills ok t s → Fills ok (.char c :: t) (c :: s)
  | hole {name v : List Char} {t : List Piece} {s : List Char} :
    ok name v → Fills ok t s → Fills ok (.hole name :: t) (v ++ s)

/-- Any text will do. -/
def anything (_ _ : List Char) : Prop := True

instance : DecidableRel anything := fun _ _ => .isTrue trivial

/-! ## Fillings are found by search -/

section
variable {ok : List Char → List Char → Prop}

def fits (ok : List Char → List Char → Prop) [DecidableRel ok] : List Piece → List Char → Bool
  | [], s => s.isEmpty
  | .char c :: t, s => s.head? = some c && fits ok t s.tail
  | .hole name :: t, s =>
    (s.inits.zip s.tails).any fun (v, rest) => decide (ok name v) && fits ok t rest

@[simp] theorem fills_nil_iff {s : List Char} : Fills ok [] s ↔ s = [] := by
  constructor
  · rintro ⟨⟩
    rfl
  · rintro rfl
    exact .nil

theorem fills_char_iff {c : Char} {t : List Piece} {s : List Char} :
    Fills ok (.char c :: t) s ↔ s.head? = some c ∧ Fills ok t s.tail := by
  constructor
  · rintro ⟨⟩
    exact ⟨rfl, by assumption⟩
  · rintro ⟨hc, ht⟩
    obtain ⟨rest, rfl⟩ := List.head?_eq_some_iff.mp hc
    exact .char c ht

theorem fills_hole_iff {name : List Char} {t : List Piece} {s : List Char} :
    Fills ok (.hole name :: t) s ↔ ∃ v rest, v ++ rest = s ∧ ok name v ∧ Fills ok t rest := by
  constructor
  · rintro ⟨⟩
    exact ⟨_, _, rfl, by assumption, by assumption⟩
  · rintro ⟨v, rest, rfl, hv, ht⟩
    exact .hole hv ht

theorem fits_iff [DecidableRel ok] {t : List Piece} {s : List Char} :
    fits ok t s = true ↔ Fills ok t s := by
  induction t generalizing s with
  | nil => rw [fits, List.isEmpty_iff, fills_nil_iff]
  | cons p t ih =>
    cases p with
    | char c => rw [fits, Bool.and_eq_true, decide_eq_true_eq, ih, fills_char_iff]
    | hole name =>
      simp only [fits, List.any_eq_true, Prod.exists, List.mem_zip_inits_tails, Bool.and_eq_true,
        decide_eq_true_eq, ih, fills_hole_iff]

instance [DecidableRel ok] (t : List Piece) (s : List Char) : Decidable (Fills ok t s) :=
  decidable_of_iff _ fits_iff

theorem Fills.append {t t' : List Piece} {s s' : List Char} (h : Fills ok t s)
    (h' : Fills ok t' s') : Fills ok (t ++ t') (s ++ s') := by
  induction h with
  | nil => exact h'
  | char c _ ih => exact .char c ih
  | hole hv _ ih =>
    rw [List.append_assoc]
    exact .hole hv ih

end

/-! ## Reading a template -/

@[simp] theorem text_nil : text [] = [] := rfl

@[simp] theorem text_cons (p : Piece) (t : List Piece) : text (p :: t) = p.text ++ text t := rfl

@[simp] theorem text_append (t t' : List Piece) : text (t ++ t') = text t ++ text t' :=
  List.flatMap_append

theorem piecesFrom_drop (k : Nat) (s : List Char) : piecesFrom k s = pieces (s.drop k) := by
  induction s generalizing k with
  | nil => cases k <;> rfl
  | cons c s ih =>
    cases k with
    | zero => rfl
    | succ k => exact ih k

theorem takeWhile_name {name : List Char} (h : '>' ∉ name) (s : List Char) :
    (name ++ '>' :: s).takeWhile (· ≠ '>') = name := by
  rw [List.takeWhile_append_of_pos (by simpa using fun c hc => ne_of_mem_of_not_mem hc h)]
  simp

/-- A placeholder with its name, or a character that does not open one. -/
def Piece.Readable : Piece → Prop
  | .char c => c ≠ '<'
  | .hole name => name ≠ [] ∧ '>' ∉ name

theorem pieces_cons {p : Piece} (h : p.Readable) (s : List Char) :
    pieces (p.text ++ s) = p :: pieces s := by
  cases p with
  | char c =>
    have hne : ¬ (c = '<' ∧ s.takeWhile (· ≠ '>') ≠ [] ∧ '>' ∈ s) := fun ⟨hc, _⟩ => h hc
    exact if_neg hne
  | hole name =>
    obtain ⟨hname, hclose⟩ := h
    have hcs : Piece.text (.hole name) ++ s = '<' :: (name ++ '>' :: s) := by simp [Piece.text]
    have hmem : '>' ∈ name ++ '>' :: s := by simp
    rw [hcs, pieces, piecesFrom, takeWhile_name hclose, if_pos ⟨rfl, hname, hmem⟩, piecesFrom_drop]
    congr 2
    rw [List.append_cons, List.drop_left' (by simp)]

/-- A readable template is read back. -/
theorem pieces_text {t : List Piece} (h : ∀ p ∈ t, p.Readable) : pieces (text t) = t := by
  induction t with
  | nil => rfl
  | cons p t ih =>
    rw [text_cons, pieces_cons (h p List.mem_cons_self),
      ih fun q hq => h q (List.mem_cons_of_mem p hq)]

/-- Nothing of a text is lost in reading it. -/
theorem text_piecesFrom (k : Nat) (s : List Char) : text (piecesFrom k s) = s.drop k := by
  induction s generalizing k with
  | nil => cases k <;> rfl
  | cons c s ih =>
    cases k with
    | succ k => exact ih k
    | zero =>
      rw [piecesFrom, List.drop_zero]
      split
      · next h =>
        obtain ⟨rfl, -, hclose⟩ := h
        obtain ⟨name, rest, rfl, hname⟩ := List.eq_append_cons_of_mem hclose
        rw [takeWhile_name hname, text_cons, ih, List.append_cons, List.drop_left' (by simp)]
        simp [Piece.text]
      · rw [text_cons, ih]
        rfl

theorem text_pieces (s : List Char) : text (pieces s) = s := text_piecesFrom 0 s

theorem text_flatMap_pieces (ss : List (List Char)) : text (ss.flatMap pieces) = ss.flatten := by
  induction ss with
  | nil => rfl
  | cons s ss ih =>
    rw [List.flatMap_cons, text_append, text_pieces, ih, List.flatten_cons]

/-! ## Shell patterns -/

def Piece.token : Piece → Glob.Token
  | .char c => .literal c
  | .hole _ => .star

/-- A character that stands for itself in a shell pattern. -/
def Piece.Literal : Piece → Prop
  | .char c => c ∉ ['*', '?', '[']
  | .hole _ => True

theorem tokens_wildcard {t : List Piece} (h : ∀ p ∈ t, p.Literal) :
    Glob.tokens (t.map Piece.wildcard) = t.map Piece.token := by
  induction t with
  | nil => rfl
  | cons p t ih =>
    have ht := ih fun q hq => h q (List.mem_cons_of_mem p hq)
    rw [Glob.tokens] at ht ⊢
    cases p with
    | hole name => exact congrArg (Glob.Token.star :: ·) ht
    | char c =>
      have hc : c ∉ ['*', '?', '['] := h _ List.mem_cons_self
      simp only [List.mem_cons, List.not_mem_nil, or_false, not_or] at hc
      rw [List.map_cons, Piece.wildcard, Glob.tokensFrom, ht]
      · rfl
      · exact hc.1
      · exact hc.2.1
      · exact hc.2.2

theorem accepts_token {t : List Piece} {s : List Char} :
    Glob.accepts (t.map Piece.token) s = true ↔ Fills anything t s := by
  induction t generalizing s with
  | nil => rw [List.map_nil, Glob.accepts, List.isEmpty_iff, fills_nil_iff]
  | cons p t ih =>
    cases p with
    | char c =>
      rw [List.map_cons, Piece.token, Glob.accepts, Bool.and_eq_true, decide_eq_true_eq, ih,
        fills_char_iff]
    | hole name =>
      rw [List.map_cons, Piece.token, Glob.accepts, List.any_eq_true, fills_hole_iff]
      simp only [List.mem_tails, ih]
      constructor
      · rintro ⟨rest, ⟨v, hv⟩, ht⟩
        exact ⟨v, rest, hv, trivial, ht⟩
      · rintro ⟨v, rest, hv, -, ht⟩
        exact ⟨rest, ⟨v, hv⟩, ht⟩

/-- The shell pattern takes what the template is when anything may be filled in. -/
theorem fnmatch_wildcard {t : List Piece} (h : ∀ p ∈ t, p.Literal) {s : List Char} :
    Glob.fnmatch s (t.map Piece.wildcard) = true ↔ Fills anything t s := by
  rw [Glob.fnmatch, tokens_wildcard h, accepts_token]

/-- Among them is the template's own text. -/
theorem fills_text (t : List Piece) : Fills anything t (text t) := by
  induction t with
  | nil => exact .nil
  | cons p t ih =>
    cases p with
    | char c => exact .char c ih
    | hole name => exact .hole trivial ih

/-- A placeholder at the end takes all that follows. -/
theorem fills_hole_end {t : List Piece} {s : List Char} (h : Fills anything t s)
    (name rest : List Char) : Fills anything (t ++ [.hole name]) (s ++ rest) := by
  have hrest : Fills anything [.hole name] (rest ++ []) := .hole trivial .nil
  rw [List.append_nil] at hrest
  exact h.append hrest

/-! ## Runs of one character -/

/-- The brackets and the names are free of it. -/
def Piece.Free (a : Char) : Piece → Prop
  | .char _ => True
  | .hole name => a ∉ name

theorem text_squeeze {a : Char} (ha : a ∉ ['<', '>']) {t : List Piece} (h : ∀ p ∈ t, p.Free a) :
    text (squeeze (.char a) t) = squeeze a (text t) := by
  simp only [List.mem_cons, List.not_mem_nil, or_false, not_or] at ha
  induction t with
  | nil => rfl
  | cons p t ih =>
    have ht := ih fun q hq => h q (List.mem_cons_of_mem p hq)
    cases p with
    | hole name =>
      have hfree : a ∉ name := h _ List.mem_cons_self
      have hname : a ∉ Piece.text (.hole name) := by simp [Piece.text, ha.1, ha.2, hfree]
      rw [squeeze, if_neg (by simp), text_cons, ht, text_cons, squeeze_append_of_not_mem hname]
    | char c =>
      have hhead : t.head? = some (.char a) ↔ (text t).head? = some a := by
        cases t with
        | nil => simp
        | cons q t =>
          cases q with
          | char d => simp [Piece.text]
          | hole name => simp [Piece.text, Ne.symm ha.1]
      have hc : (Piece.char c = .char a ∧ t.head? = some (.char a)) ↔
          (c = a ∧ (text t).head? = some a) := by rw [hhead, Piece.char.injEq]
      rw [text_cons, Piece.text, List.singleton_append, squeeze, squeeze]
      simp only [hc]
      split
      · exact ht
      · rw [text_cons, ht]
        rfl

end Template
