import Mathlib.Algebra.Order.Ring.Nat
import Mathlib.Data.List.DropRight
import Mathlib.Tactic.Common

/-!
# Timestamps

Dates of the Gregorian calendar, and instants as the texts of RFC 3339 with a fraction of
a second that ends in no zero. A text that was written tells its instant.
-/
namespace Timestamps

/-! ## Numbers of a fixed width -/

/-- The last `k` decimal digits. -/
def digits : Nat → Nat → List Char
  | 0, _ => []
  | k + 1, n => digits k (n / 10) ++ [Nat.digitChar (n % 10)]

def value (s : List Char) : Nat := s.foldl (fun n c => 10 * n + (c.toNat - 48)) 0

/-- A number of `k` digits at the front of a text. -/
def number (k : Nat) (s : List Char) : Option (Nat × List Char) :=
  if (s.take k).length = k ∧ (s.take k).all Char.isDigit then some (value (s.take k), s.drop k) else none

def separator (c : Char) : List Char → Option (List Char)
  | d :: s => if d = c then some s else none
  | [] => none

@[simp] theorem length_digits (k n : Nat) : (digits k n).length = k := by
  induction k generalizing n with
  | zero => rfl
  | succ k ih => simp [digits, ih]

theorem digitChar_value : ∀ d < 10, (Nat.digitChar d).isDigit = true ∧ (Nat.digitChar d).toNat - 48 = d := by
  decide

theorem isDigit_digits (k n : Nat) : (digits k n).all Char.isDigit = true := by
  induction k generalizing n with
  | zero => rfl
  | succ k ih =>
    have hd := (digitChar_value (n % 10) (Nat.mod_lt n (by decide))).1
    simp [digits, ih, hd]

@[simp] theorem value_digits (k n : Nat) : value (digits k n) = n % 10 ^ k := by
  induction k generalizing n with
  | zero => simp [digits, value, Nat.mod_one]
  | succ k ih =>
    have hd := (digitChar_value (n % 10) (Nat.mod_lt n (by decide))).2
    have hv : value (digits (k + 1) n) = 10 * (n / 10 % 10 ^ k) + n % 10 := by
      rw [← ih (n / 10), digits, value, List.foldl_append, List.foldl_cons, List.foldl_nil, hd]
      rfl
    rw [hv, Nat.pow_succ, Nat.mul_comm (10 ^ k), Nat.mod_mul]
    omega

@[simp] theorem number_digits (k n : Nat) (s : List Char) :
    number k (digits k n ++ s) = some (n % 10 ^ k, s) := by
  simp [number, isDigit_digits]

@[simp] theorem separator_cons (c : Char) (s : List Char) : separator c (c :: s) = some s := if_pos rfl

/-! ## The calendar -/

def isLeap (year : Nat) : Bool := year % 4 = 0 && (year % 100 ≠ 0 || year % 400 = 0)

def monthLengths (leap : Bool) : List Nat :=
  [31, if leap then 29 else 28, 31, 30, 31, 30, 31, 31, 30, 31, 30, 31]

structure Date where
  year : Nat
  month : Nat
  day : Nat
  deriving DecidableEq, Repr

/-- How many months are over, and how many days of the next one. -/
def monthDay : List Nat → Nat → Nat × Nat
  | [], d => (0, d)
  | n :: ns, d =>
    if d < n then (0, d)
    else
      let (m, r) := monthDay ns (d - n)
      (m + 1, r)

/-- So many days after the first day of the year 1. -/
def date (n : Nat) : Date :=
  let cycle := n % 146097
  let century := min (cycle / 36524) 3
  let d := cycle - 36524 * century
  let four := d / 1461
  let d := d - 1461 * four
  let single := min (d / 365) 3
  let year := 400 * (n / 146097) + 100 * century + 4 * four + single + 1
  let (m, r) := monthDay (monthLengths (isLeap year)) (d - 365 * single)
  ⟨year, m + 1, r + 1⟩

/-- The days from the first day of the year 1 on. -/
def dayNumber (t : Date) : Nat :=
  let y := t.year - 1
  365 * y + y / 4 - y / 100 + y / 400 + ((monthLengths (isLeap t.year)).take (t.month - 1)).sum + (t.day - 1)

/-- The day is in the calendar. -/
structure Proper (t : Date) : Prop where
  month : 1 ≤ t.month ∧ t.month ≤ 12
  day : 1 ≤ t.day ∧ ∀ n ∈ (monthLengths (isLeap t.year))[t.month - 1]?, t.day ≤ n

theorem monthDay_spec (ns : List Nat) {d : Nat} (h : d < ns.sum) :
    (monthDay ns d).1 < ns.length ∧ (ns.take (monthDay ns d).1).sum + (monthDay ns d).2 = d ∧
      ∀ n ∈ ns[(monthDay ns d).1]?, (monthDay ns d).2 < n := by
  induction ns generalizing d with
  | nil => simp at h
  | cons n ns ih =>
    simp only [monthDay]
    by_cases hlt : d < n
    · simp [hlt]
    · rw [List.sum_cons] at h
      obtain ⟨hm, hsum, hday⟩ := ih (d := d - n) (by omega)
      simp only [hlt, if_false, List.length_cons, List.take_succ_cons, List.sum_cons]
      refine ⟨by omega, by omega, ?_⟩
      simpa using hday

theorem sum_monthLengths (leap : Bool) : (monthLengths leap).sum = if leap then 366 else 365 := by
  cases leap <;> rfl

theorem length_monthLengths (leap : Bool) : (monthLengths leap).length = 12 := rfl

/-- The leap days before a year, by its place in the cycles of the calendar. -/
theorem leap_days (era : Nat) {century four single : Nat} (hc : century ≤ 3) (hf : four ≤ 24) (hs : single ≤ 3) :
    (400 * era + 100 * century + 4 * four + single) / 4 = 100 * era + 25 * century + four ∧
    (400 * era + 100 * century + 4 * four + single) / 100 = 4 * era + century ∧
    (400 * era + 100 * century + 4 * four + single) / 400 = era := by
  omega

/-- The parts of a day number: the years that are over, and what is left of the next one. -/
theorem year_of_day (n : Nat) : ∃ y d, (date n).year = y + 1 ∧
    (date n).month = (monthDay (monthLengths (isLeap (y + 1))) d).1 + 1 ∧
    (date n).day = (monthDay (monthLengths (isLeap (y + 1))) d).2 + 1 ∧
    n = 365 * y + y / 4 - y / 100 + y / 400 + d ∧ d < (monthLengths (isLeap (y + 1))).sum := by
  have hcycle := Nat.mod_lt n (show 146097 > 0 by decide)
  have hn := Nat.div_add_mod n 146097
  refine ⟨400 * (n / 146097) + 100 * min (n % 146097 / 36524) 3 +
    4 * ((n % 146097 - 36524 * min (n % 146097 / 36524) 3) / 1461) +
    min (((n % 146097 - 36524 * min (n % 146097 / 36524) 3) -
      1461 * ((n % 146097 - 36524 * min (n % 146097 / 36524) 3) / 1461)) / 365) 3, _, rfl, rfl, rfl, ?_⟩
  generalize n / 146097 = era at *
  generalize n % 146097 = cycle at *
  generalize hcentury : min (cycle / 36524) 3 = century
  generalize hd : cycle - 36524 * century = d
  generalize hfour : d / 1461 = four
  generalize hr : d - 1461 * four = r
  generalize hsingle : min (r / 365) 3 = single
  have hc : century ≤ 3 ∧ 36524 * century ≤ cycle ∧ d ≤ 36524 := by omega
  have hf : four ≤ 24 ∧ r ≤ 1460 := by omega
  have hs : single ≤ 3 ∧ 365 * single ≤ r := by omega
  obtain ⟨h4, h100, h400⟩ := leap_days era hc.1 hf.1 hs.1
  constructor
  · omega
  · rw [sum_monthLengths]
    split
    · omega
    · next hleap =>
      simp only [isLeap, Bool.and_eq_true, Bool.or_eq_true, decide_eq_true_eq, not_and, not_or] at hleap
      have hshort : r - 365 * single < 365 ∨ single = 3 ∧ r = 1460 := by omega
      obtain hshort | ⟨rfl, rfl⟩ := hshort
      · exact hshort
      · have hnot := hleap (by omega)
        omega

theorem dayNumber_date (n : Nat) : dayNumber (date n) = n := by
  obtain ⟨y, d, hy, hm, hd, hn, hlt⟩ := year_of_day n
  obtain ⟨_, hsum, _⟩ := monthDay_spec _ hlt
  simp only [dayNumber, hy, hm, hd, Nat.add_sub_cancel]
  omega

theorem proper_date (n : Nat) : Proper (date n) := by
  obtain ⟨y, d, hy, hm, hd, _, hlt⟩ := year_of_day n
  obtain ⟨hmonth, _, hday⟩ := monthDay_spec _ hlt
  rw [length_monthLengths] at hmonth
  refine ⟨by omega, by omega, ?_⟩
  simp only [hy, hm, hd, Nat.add_sub_cancel]
  exact fun m hm => hday m hm

theorem Proper.day_le {t : Date} (h : Proper t) : t.day ≤ 31 := by
  have hlt : t.month - 1 < (monthLengths (isLeap t.year)).length := by
    rw [length_monthLengths]
    have := h.month
    omega
  have hle := h.day.2 _ (List.getElem?_eq_getElem hlt)
  have hall : ∀ leap, ∀ n ∈ monthLengths leap, n ≤ 31 := by decide
  exact Nat.le_trans hle (hall _ _ (List.getElem_mem hlt))

/-! ## Instants -/

/-- Of nanoseconds, without the zeros at the end. -/
def fraction (nano : Nat) : List Char :=
  let f := (digits 9 nano).rdropWhile (· = '0')
  if f = [] then [] else '.' :: f

/-- The days from the first day of the year 1 to the first of 1970. -/
def unixEpoch : Int := 719162

/-- `time.RFC3339Nano`, of so many nanoseconds since 1970 in UTC. -/
def rfc3339Nano (t : Int) : List Char :=
  let seconds := t / 1000000000
  let day := date (seconds / 86400 + unixEpoch).toNat
  let second := (seconds % 86400).toNat
  digits 4 day.year ++ '-' :: digits 2 day.month ++ '-' :: digits 2 day.day ++
    'T' :: digits 2 (second / 3600) ++ ':' :: digits 2 (second / 60 % 60) ++ ':' :: digits 2 (second % 60) ++
    fraction (t % 1000000000).toNat ++ ['Z']

/-- The nanoseconds of a fraction, and that nothing but a `Z` follows. -/
def readFraction : List Char → Option Nat
  | '.' :: s =>
    let f := s.takeWhile Char.isDigit
    if s.dropWhile Char.isDigit = ['Z'] then some (value (f ++ List.replicate (9 - f.length) '0')) else none
  | s => if s = ['Z'] then some 0 else none

/-- The instant that a text tells, in nanoseconds since 1970. -/
def instant (s : List Char) : Option Int := do
  let (year, s) ← number 4 s
  let s ← separator '-' s
  let (month, s) ← number 2 s
  let s ← separator '-' s
  let (day, s) ← number 2 s
  let s ← separator 'T' s
  let (hour, s) ← number 2 s
  let s ← separator ':' s
  let (minute, s) ← number 2 s
  let s ← separator ':' s
  let (second, s) ← number 2 s
  let nano ← readFraction s
  let days := (dayNumber ⟨year, month, day⟩ : Int) - unixEpoch
  pure ((days * 86400 + (3600 * hour + 60 * minute + second : Nat)) * 1000000000 + nano)

theorem rdropWhile_replicate (s : List Char) : s.rdropWhile (· = '0') ++
    List.replicate (s.length - (s.rdropWhile (· = '0')).length) '0' = s := by
  have hsplit := List.rdropWhile_append_rtakeWhile (p := fun c : Char => decide (c = '0')) (l := s)
  have hlen := congrArg List.length hsplit
  rw [List.length_append] at hlen
  have hzero : s.rtakeWhile (· = '0') =
      List.replicate (s.length - (s.rdropWhile (· = '0')).length) '0' := by
    rw [List.eq_replicate_iff]
    refine ⟨by omega, fun c hc => ?_⟩
    simpa using List.mem_rtakeWhile_imp hc
  rw [← hzero]
  exact hsplit

theorem readFraction_fraction (nano : Nat) (h : nano < 1000000000) :
    readFraction (fraction nano ++ ['Z']) = some nano := by
  have hback := rdropWhile_replicate (digits 9 nano)
  have hvalue : value (digits 9 nano) = nano := by
    rw [value_digits]
    exact Nat.mod_eq_of_lt h
  simp only [fraction]
  generalize hf : (digits 9 nano).rdropWhile (· = '0') = f at hback ⊢
  rw [length_digits] at hback
  split
  · next hnil =>
    rw [hnil] at hback
    have hzero : nano = 0 := by
      rw [← hvalue, ← hback]
      rfl
    simp [readFraction, hzero]
  · have hdigits : ∀ c ∈ f, c.isDigit = true := by
      intro c hc
      have hall := isDigit_digits 9 nano
      rw [← hback] at hall
      exact List.all_eq_true.mp hall c (List.mem_append_left _ hc)
    have htake : (f ++ ['Z']).takeWhile Char.isDigit = f := by
      rw [List.takeWhile_append_of_pos hdigits]
      simp [show Char.isDigit 'Z' = false from rfl]
    have hdrop : (f ++ ['Z']).dropWhile Char.isDigit = ['Z'] := by
      rw [List.dropWhile_append_of_pos hdigits]
      rfl
    simp only [List.cons_append, readFraction, htake, hdrop, if_true, hback, hvalue]

/-- The year has four digits. -/
def FourDigits (t : Int) : Prop := -62135596800000000000 ≤ t ∧ t < 253402300800000000000

/-- Every 64-bit number of nanoseconds is in a year of four digits. -/
theorem fourDigits_of_int64 {t : Int} (h : -2 ^ 63 ≤ t ∧ t < 2 ^ 63) : FourDigits t := by
  unfold FourDigits
  omega

theorem year_lt {n : Nat} (h : n < 3652059) : (date n).year < 10000 := by
  obtain ⟨y, d, hy, _, _, hn, _⟩ := year_of_day n
  omega

/-- A text tells the instant it was written for. -/
theorem instant_rfc3339Nano {t : Int} (h : FourDigits t) : instant (rfc3339Nano t) = some t := by
  obtain ⟨hlo, hhi⟩ := h
  have hnano := readFraction_fraction (t % 1000000000).toNat (by omega)
  have hproper := proper_date (t / 1000000000 / 86400 + unixEpoch).toNat
  have hnumber := dayNumber_date (t / 1000000000 / 86400 + unixEpoch).toNat
  have hyear := year_lt (n := (t / 1000000000 / 86400 + unixEpoch).toNat) (by unfold unixEpoch; omega)
  have hday := hproper.day_le
  have hmonth := hproper.month
  simp only [instant, rfc3339Nano, List.append_assoc, List.cons_append, number_digits, separator_cons,
    Option.bind_eq_bind, Option.bind_some, hnano]
  generalize date (t / 1000000000 / 86400 + unixEpoch).toNat = day at *
  rw [Nat.mod_eq_of_lt (by omega : day.year < 10 ^ 4), Nat.mod_eq_of_lt (by omega : day.month < 10 ^ 2),
    Nat.mod_eq_of_lt (by omega : day.day < 10 ^ 2), hnumber]
  simp only [unixEpoch, Option.pure_def, Option.some.injEq]
  omega

end Timestamps
