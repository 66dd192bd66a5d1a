import Mathlib.Algebra.Group.Nat.Defs
import Mathlib.Data.List.Basic
import Mathlib.Data.List.TakeWhile
import Keywarden.Text

/-!
# IP addresses

Reading and writing the texts of IPv4 and IPv6 addresses as Python's `ipaddress`
does, and the networks addresses are in. An address carries the bounds of its
parts, so every address can be written, and what is written reads back.
-/
namespace IpAddress

open Text (mem_intercalate)

structure V4 where
  octets : List Nat
  length_eq : octets.length = 4
  lt : ∀ n ∈ octets, n < 256
  deriving DecidableEq, Repr

/-- With the zone that a link-local address is in, if the text names one. -/
structure V6 where
  hextets : List Nat
  zone : Option (List Char)
  length_eq : hextets.length = 8
  lt : ∀ n ∈ hextets, n < 65536
  zone_ok : ∀ z ∈ zone, z ≠ [] ∧ '%' ∉ z ∧ '/' ∉ z
  deriving DecidableEq, Repr

inductive Address where
  | v4 (a : V4)
  | v6 (a : V6)
  deriving DecidableEq, Repr

def Address.zone : Address → Option (List Char)
  | .v4 _ => none
  | .v6 a => a.zone

/-- The number that a list of digits to a base stands for. -/
def ofParts (base : Nat) (parts : List Nat) : Nat := parts.foldl (fun n part => base * n + part) 0

def V4.value (a : V4) : Nat := ofParts 256 a.octets
def V6.value (a : V6) : Nat := ofParts 65536 a.hextets

/-! ## Reading -/

def parseOctet (s : List Char) : Option Nat :=
  if s = [] ∨ s.all Char.isDigit = false ∨ 3 < s.length ∨ (s ≠ ['0'] ∧ s.head? = some '0') then none
  else
    let n := Nat.ofDigitChars 10 s 0
    if 255 < n then none else some n

def V4.ofOctets (octets : List Nat) : Option V4 :=
  if h : octets.length = 4 ∧ ∀ n ∈ octets, n < 256 then some ⟨octets, h.1, h.2⟩ else none

def parseV4 (s : List Char) : Option V4 := ((s.splitOn '.').mapM parseOctet).bind V4.ofOctets

def isHexDigit (c : Char) : Bool :=
  c.isDigit || (decide ('a' ≤ c) && decide (c ≤ 'f')) || (decide ('A' ≤ c) && decide (c ≤ 'F'))

def hexValue (c : Char) : Nat :=
  if c.isDigit then c.toNat - 48 else if 'a' ≤ c then c.toNat - 87 else c.toNat - 55

def hexNumber (s : List Char) : Nat := s.foldl (fun n c => 16 * n + hexValue c) 0

def parseHextet (s : List Char) : Option Nat :=
  if s = [] ∨ s.all isHexDigit = false ∨ 4 < s.length then none else some (hexNumber s)

/-- The text of a hextet. -/
def hex (n : Nat) : List Char := Nat.toDigits 16 n

/-- An IPv4 address in the place of the last two hextets. -/
def embedV4 (parts : List (List Char)) : Option (List (List Char)) :=
  let tail := parts.getLastD []
  if '.' ∈ tail then
    (parseV4 tail).map fun a =>
      parts.dropLast ++ [hex (a.value / 65536), hex (a.value % 65536)]
  else some parts

/-- The parts on one side of `::`; at the end of the text there is an empty one. -/
def side (parts : List (List Char)) : List (List Char) := if parts = [[]] then [] else parts

/-- The hextets of the parts. A part that is empty, not counting the two at the ends,
stands for as many zeros as are missing. -/
def readParts (parts : List (List Char)) : Option (List Nat) :=
  let interior := (parts.drop 1).dropLast
  match interior.count [] with
  | 0 => parts.mapM parseHextet
  | 1 =>
    let skip := interior.idxOf [] + 1
    let hi := side (parts.take skip)
    let lo := side (parts.drop (skip + 1))
    if 8 ≤ hi.length + lo.length then none
    else (hi.mapM parseHextet).bind fun hi => (lo.mapM parseHextet).map fun lo =>
      hi ++ List.replicate (8 - (hi.length + lo.length)) 0 ++ lo
  | _ => none

/-- The text before the zone, and the zone. -/
def splitZone (s : List Char) : Option (List Char × Option (List Char)) :=
  match s.dropWhile (· ≠ '%') with
  | [] => some (s, none)
  | _ :: zone =>
    if zone = [] ∨ '%' ∈ zone then none else some (s.takeWhile (· ≠ '%'), some zone)

def V6.ofHextets (hextets : List Nat) (zone : Option (List Char)) : Option V6 :=
  if h : hextets.length = 8 ∧ (∀ n ∈ hextets, n < 65536) ∧
      ∀ z ∈ zone, z ≠ [] ∧ '%' ∉ z ∧ '/' ∉ z then
    some ⟨hextets, zone, h.1, h.2.1, h.2.2⟩
  else none

def parseV6 (s : List Char) : Option V6 :=
  if '/' ∈ s then none
  else (splitZone s).bind fun (address, zone) =>
    let parts := address.splitOn ':'
    if parts.length < 3 then none
    else (embedV4 parts).bind fun parts =>
      if 9 < parts.length then none
      else (readParts parts).bind fun hextets => V6.ofHextets hextets zone

/-- `ipaddress.ip_address`. -/
def parse (s : List Char) : Option Address :=
  match parseV4 s with
  | some a => some (.v4 a)
  | none => (parseV6 s).map .v6

/-! ## Writing -/

def V4.str (a : V4) : List Char := ['.'].intercalate (a.octets.map (Nat.toDigits 10))

/-- Where the longest run of two or more zeros starts, and its length. -/
def zeroRun (hextets : List Nat) : Option (Nat × Nat) :=
  let runs := [8, 7, 6, 5, 4, 3, 2].flatMap fun n => (List.range (9 - n)).map fun i => (i, n)
  runs.find? fun (i, n) => (hextets.drop i).take n = List.replicate n 0

/-- What stands on one side of `::`. -/
def endpoint (parts : List (List Char)) : List (List Char) := if parts = [] then [[]] else parts

def compress (hextets : List Nat) : List (List Char) :=
  match zeroRun hextets with
  | none => hextets.map hex
  | some (i, n) =>
    endpoint ((hextets.take i).map hex) ++ [] :: endpoint ((hextets.drop (i + n)).map hex)

def zoneText : Option (List Char) → List Char
  | none => []
  | some z => '%' :: z

def V6.str (a : V6) : List Char :=
  [':'].intercalate (compress a.hextets) ++ zoneText a.zone

/-- `str(address)`. -/
def Address.str : Address → List Char
  | .v4 a => a.str
  | .v6 a => a.str

/-! ## The parts of a text -/

theorem exists_mem_splitOn {c x : Char} {s : List Char} (h : c ∈ s) (hne : c ≠ x) :
    ∃ p ∈ s.splitOn x, c ∈ p := by
  have hparts : [x].intercalate (s.splitOn x) = s := List.intercalate_splitOn x
  rw [← hparts] at h
  exact (mem_intercalate h).resolve_left hne

/-- Numbers that read back one by one. -/
theorem mapM_written {read : List Char → Option Nat} {write : Nat → List Char} {ns : List Nat}
    (h : ∀ n ∈ ns, read (write n) = some n) : (ns.map write).mapM read = some ns := by
  induction ns with
  | nil => rfl
  | cons n ns ih =>
    rw [List.map_cons, List.mapM_cons, h n List.mem_cons_self,
      ih fun m hm => h m (List.mem_cons_of_mem n hm)]
    rfl

theorem isSome_of_mapM {α β : Type} {f : α → Option β} {l : List α} {r : List β}
    (h : l.mapM f = some r) : ∀ a ∈ l, (f a).isSome = true := by
  induction l generalizing r with
  | nil => exact fun a ha => nomatch ha
  | cons b l ih =>
    rw [List.mapM_cons] at h
    cases hb : f b with
    | none =>
      rw [hb] at h
      cases h
    | some x =>
      rw [hb] at h
      cases hl : l.mapM f with
      | none =>
        rw [hl] at h
        cases h
      | some xs =>
        intro a ha
        obtain rfl | ha := List.mem_cons.mp ha
        · rw [hb]
          rfl
        · exact ih hl a ha

/-! ## Numbers -/

theorem hexDigit_digitChar : ∀ d < 16, isHexDigit (Nat.digitChar d) = true ∧
    hexValue (Nat.digitChar d) = d := by decide

/-- Every digit of a hextet is one, and together they read back. -/
theorem hex_spec (n : Nat) : (hex n).all isHexDigit = true ∧ hexNumber (hex n) = n := by
  unfold hex
  induction n using Nat.base_induction 16 (by decide) with
  | single m hm =>
    rw [Nat.toDigits_of_lt_base hm]
    obtain ⟨h₁, h₂⟩ := hexDigit_digitChar m hm
    simp [hexNumber, h₁, h₂]
  | digit m k hk hm ih =>
    rw [← Nat.toDigits_append_toDigits (by decide) hm hk, Nat.toDigits_of_lt_base hk]
    obtain ⟨h₁, h₂⟩ := hexDigit_digitChar k hk
    obtain ⟨ih₁, ih₂⟩ := ih
    refine ⟨by simp [ih₁, h₁], ?_⟩
    rw [hexNumber, List.foldl_append, ← hexNumber, ih₂]
    simp [h₂]

theorem hex_ne_nil (n : Nat) : hex n ≠ [] := Nat.toDigits_ne_nil

theorem parseHextet_hex {n : Nat} (h : n < 65536) : parseHextet (hex n) = some n := by
  obtain ⟨hall, hval⟩ := hex_spec n
  have hlen : (hex n).length ≤ 4 := (Nat.length_toDigits_le_iff (by decide) (by decide)).mpr h
  rw [parseHextet, if_neg, hval]
  simp [hex_ne_nil, hall, hlen]

theorem parseOctet_toDigits : ∀ n < 256, parseOctet (Nat.toDigits 10 n) = some n := by
  decide +kernel

theorem not_mem_octet : ∀ n < 256, '.' ∉ Nat.toDigits 10 n := by
  decide +kernel

/-! ## What is written reads back -/

theorem parseV4_str (a : V4) : parseV4 a.str = some a := by
  have hparts : (a.str).splitOn '.' = a.octets.map (Nat.toDigits 10) := by
    refine List.splitOn_intercalate '.' ?_ ?_
    · intro l hl
      obtain ⟨n, hn, rfl⟩ := List.mem_map.mp hl
      exact not_mem_octet n (a.lt n hn)
    · rw [Ne, List.map_eq_nil_iff]
      intro hnil
      have hlen := a.length_eq
      rw [hnil] at hlen
      cases hlen
  rw [parseV4, hparts, mapM_written fun n hn => parseOctet_toDigits n (a.lt n hn), Option.bind_some,
    V4.ofOctets, dif_pos ⟨a.length_eq, a.lt⟩]

/-- A text with a colon is no IPv4 address. -/
theorem parseV4_of_colon {s : List Char} (h : ':' ∈ s) : parseV4 s = none := by
  obtain ⟨p, hp, hc⟩ := exists_mem_splitOn h (by decide : ':' ≠ '.')
  have hparse : parseOctet p = none := by
    have hall : p.all Char.isDigit = false := by
      rw [List.all_eq_false]
      exact ⟨':', hc, by decide⟩
    rw [parseOctet, if_pos (.inr (.inl hall))]
  unfold parseV4
  cases hm : (s.splitOn '.').mapM parseOctet with
  | none => rfl
  | some octets =>
    have hsome := isSome_of_mapM hm p hp
    rw [hparse] at hsome
    cases hsome

theorem zeroRun_spec {hextets : List Nat} {i n : Nat} (h : zeroRun hextets = some (i, n)) :
    2 ≤ n ∧ i + n ≤ 8 ∧
      hextets = hextets.take i ++ List.replicate n 0 ++ hextets.drop (i + n) := by
  have hmem := List.mem_of_find?_eq_some h
  have hrun : (hextets.drop i).take n = List.replicate n 0 := by simpa using List.find?_some h
  have hn : 2 ≤ n ∧ i + n ≤ 8 := by
    simp only [List.mem_flatMap, List.mem_map, List.mem_range, Prod.mk.injEq] at hmem
    obtain ⟨m, hm, j, hj, rfl, rfl⟩ := hmem
    simp only [List.mem_cons, List.not_mem_nil, or_false] at hm
    omega
  refine ⟨hn.1, hn.2, ?_⟩
  rw [← hrun, List.append_assoc, ← List.drop_drop, List.take_append_drop, List.take_append_drop]

/-- `::` is the one empty part inside the text. -/
theorem readParts_compressed {hi lo : List Nat} (hhi : ∀ n ∈ hi, n < 65536)
    (hlo : ∀ n ∈ lo, n < 65536) (hlen : hi.length + lo.length < 8) :
    readParts (endpoint (hi.map hex) ++ [] :: endpoint (lo.map hex)) =
      some (hi ++ List.replicate (8 - (hi.length + lo.length)) 0 ++ lo) := by
  have hside : ∀ ns : List Nat, endpoint (ns.map hex) ≠ [] ∧
      side (endpoint (ns.map hex)) = ns.map hex ∧ [] ∉ (endpoint (ns.map hex)).tail ∧
      [] ∉ (endpoint (ns.map hex)).dropLast := by
    intro ns
    have hnot : [] ∉ ns.map hex := by
      intro h
      obtain ⟨n, _, hn⟩ := List.mem_map.mp h
      exact hex_ne_nil n hn
    by_cases hns : ns.map hex = []
    · simp [endpoint, side, hns]
    · rw [endpoint, if_neg hns]
      refine ⟨hns, ?_, fun h => hnot (List.mem_of_mem_tail h),
        fun h => hnot (List.dropLast_subset _ h)⟩
      rw [side, if_neg]
      intro heq
      rw [heq] at hnot
      exact hnot (List.mem_singleton_self _)
  obtain ⟨hne₁, hside₁, htail, _⟩ := hside hi
  obtain ⟨hne₂, hside₂, _, hlast⟩ := hside lo
  generalize endpoint (hi.map hex) = front at hne₁ hside₁ htail
  generalize endpoint (lo.map hex) = back at hne₂ hside₂ hlast
  have hinterior : ((front ++ [] :: back).drop 1).dropLast = front.tail ++ [] :: back.dropLast := by
    obtain ⟨p, front, rfl⟩ := List.exists_cons_of_ne_nil hne₁
    rw [List.cons_append, List.drop_one, List.tail_cons, List.tail_cons,
      List.dropLast_append_of_ne_nil (by simp), List.dropLast_cons_of_ne_nil hne₂]
  have hcount : (front.tail ++ [] :: back.dropLast).count [] = 1 := by
    rw [List.count_append, List.count_cons_self, List.count_eq_zero.mpr htail,
      List.count_eq_zero.mpr hlast]
  have hskip : (front.tail ++ [] :: back.dropLast).idxOf [] + 1 = front.length := by
    rw [List.idxOf_append_of_notMem htail, List.idxOf_cons_self, Nat.add_zero, List.length_tail]
    exact Nat.succ_pred (by simpa using hne₁)
  have hdrop : (front ++ [] :: back).drop (front.length + 1) = back := by
    rw [← List.drop_drop, List.drop_left, List.drop_one, List.tail_cons]
  simp only [readParts, hinterior, hcount]
  rw [hskip, List.take_left, hdrop, hside₁, hside₂, List.length_map, List.length_map,
    if_neg (by omega), mapM_written fun n hn => parseHextet_hex (hhi n hn),
    mapM_written fun n hn => parseHextet_hex (hlo n hn)]
  rfl

theorem readParts_hex {hextets : List Nat} (hlt : ∀ n ∈ hextets, n < 65536) :
    readParts (hextets.map hex) = some hextets := by
  have hnot : [] ∉ ((hextets.map hex).drop 1).dropLast := by
    intro h
    obtain ⟨n, _, hn⟩ := List.mem_map.mp (List.mem_of_mem_drop (List.dropLast_subset _ h))
    exact hex_ne_nil n hn
  simp only [readParts, List.count_eq_zero.mpr hnot]
  exact mapM_written fun n hn => parseHextet_hex (hlt n hn)

/-- What the parts of a written address are like. -/
structure Written (hextets : List Nat) (parts : List (List Char)) : Prop where
  reads : readParts parts = some hextets
  length : 3 ≤ parts.length ∧ parts.length ≤ 9
  digits : ∀ p ∈ parts, p.all isHexDigit = true

theorem compress_written (a : V6) : Written a.hextets (compress a.hextets) := by
  have hhex : ∀ l : List Nat, ∀ p ∈ endpoint (l.map hex), p.all isHexDigit = true := by
    intro l p hp
    unfold endpoint at hp
    split at hp
    · rw [List.mem_singleton.mp hp]
      rfl
    · obtain ⟨n, _, rfl⟩ := List.mem_map.mp hp
      exact (hex_spec n).1
  have hlen : ∀ l : List Nat, 1 ≤ (endpoint (l.map hex)).length ∧
      (endpoint (l.map hex)).length ≤ l.length + 1 := by
    intro l
    cases l <;> simp [endpoint]
  unfold compress
  cases h : zeroRun a.hextets with
  | none =>
    refine ⟨readParts_hex a.lt, by simp [a.length_eq], fun p hp => ?_⟩
    obtain ⟨n, _, rfl⟩ := List.mem_map.mp hp
    exact (hex_spec n).1
  | some run =>
    obtain ⟨i, n⟩ := run
    obtain ⟨hn, hin, hsplit⟩ := zeroRun_spec h
    have hhi : (a.hextets.take i).length = i := by
      rw [List.length_take, a.length_eq]
      omega
    have hlo : (a.hextets.drop (i + n)).length = 8 - (i + n) := by
      rw [List.length_drop, a.length_eq]
    obtain ⟨hfront₁, hfront₂⟩ := hlen (a.hextets.take i)
    obtain ⟨hback₁, hback₂⟩ := hlen (a.hextets.drop (i + n))
    refine ⟨?_, ?_, ?_⟩
    · rw [readParts_compressed (fun m hm => a.lt m (List.mem_of_mem_take hm))
        (fun m hm => a.lt m (List.mem_of_mem_drop hm)) (by omega), hhi, hlo,
        show 8 - (i + (8 - (i + n))) = n by omega, ← hsplit]
    · rw [List.length_append, List.length_cons]
      omega
    · intro p hp
      obtain hp | hp := List.mem_append.mp hp
      · exact hhex _ p hp
      · obtain rfl | hp := List.mem_cons.mp hp
        · rfl
        · exact hhex _ p hp

/-- No separator stands inside a part. -/
theorem Written.not_mem {hextets : List Nat} {parts : List (List Char)} (h : Written hextets parts)
    {c : Char} (hc : isHexDigit c = false) : ∀ p ∈ parts, c ∉ p := by
  intro p hp hm
  have hdigit := List.all_eq_true.mp (h.digits p hp) c hm
  rw [hc] at hdigit
  cases hdigit

theorem splitZone_append {body : List Char} (hbody : '%' ∉ body) {zone : Option (List Char)}
    (hzone : ∀ z ∈ zone, z ≠ [] ∧ '%' ∉ z) :
    splitZone (body ++ zoneText zone) = some (body, zone) := by
  have hne : ∀ c ∈ body, decide (c ≠ '%') = true := by
    intro c hc
    rw [decide_eq_true_eq]
    rintro rfl
    exact hbody hc
  cases zone with
  | none =>
    rw [zoneText, List.append_nil, splitZone, List.dropWhile_eq_nil_iff.mpr hne]
  | some z =>
    obtain ⟨hz, hpct⟩ := hzone z rfl
    rw [zoneText, splitZone, List.dropWhile_append_of_pos hne, List.takeWhile_append_of_pos hne]
    simp [hz, hpct]

theorem parseV6_str (a : V6) : parseV6 a.str = some a := by
  have h := compress_written a
  have hne : compress a.hextets ≠ [] := by
    intro hnil
    have hlen := h.length.1
    rw [hnil] at hlen
    cases hlen
  have hbody : ∀ c, isHexDigit c = false → c ≠ ':' →
      c ∉ [':'].intercalate (compress a.hextets) := by
    intro c hc hcolon hm
    obtain hm | ⟨p, hp, hm⟩ := mem_intercalate hm
    · exact hcolon hm
    · exact h.not_mem hc p hp hm
  have hslash : '/' ∉ a.str := by
    intro hm
    obtain hm | hm := List.mem_append.mp hm
    · exact hbody '/' (by decide) (by decide) hm
    · cases hz : a.zone with
      | none => simp [hz, zoneText] at hm
      | some z => exact (a.zone_ok z hz).2.2 (by simpa [hz, zoneText] using hm)
  have hzone : splitZone a.str = some ([':'].intercalate (compress a.hextets), a.zone) :=
    splitZone_append (hbody '%' (by decide) (by decide)) fun z hz =>
      ⟨(a.zone_ok z hz).1, (a.zone_ok z hz).2.1⟩
  have hembed : embedV4 (compress a.hextets) = some (compress a.hextets) := by
    have hlast : (compress a.hextets).getLastD [] ∈ compress a.hextets := by
      rw [List.getLastD_eq_getLast?, List.getLast?_eq_some_getLast hne]
      exact List.getLast_mem hne
    exact if_neg (h.not_mem (by decide) _ hlast)
  rw [parseV6, if_neg hslash, hzone]
  simp only [Option.bind_some]
  rw [List.splitOn_intercalate ':' (h.not_mem (by decide)) hne,
    if_neg (by have := h.length.1; omega), hembed, Option.bind_some,
    if_neg (by have := h.length.2; omega), h.reads, Option.bind_some, V6.ofHextets,
    dif_pos ⟨a.length_eq, a.lt, a.zone_ok⟩]

/-- Every address reads back from its text. -/
theorem parse_str (a : Address) : parse a.str = some a := by
  cases a with
  | v4 a => simp only [Address.str, parse, parseV4_str]
  | v6 a =>
    have hcolon : ':' ∈ a.str := by
      have h := compress_written a
      have hlen := h.length.1
      refine List.mem_append_left _ ?_
      obtain ⟨p, q, rest, hp⟩ : ∃ p q rest, compress a.hextets = p :: q :: rest := by
        match hc : compress a.hextets with
        | [] => simp [hc] at hlen
        | [p] => simp [hc] at hlen
        | p :: q :: rest => exact ⟨p, q, rest, rfl⟩
      rw [hp, List.intercalate_cons_cons]
      simp
    simp only [Address.str, parse, parseV4_of_colon hcolon, parseV6_str, Option.map_some]

/-! ## Plain addresses -/

/-- The text is an address and names no zone. -/
def plain (s : List Char) : Bool := (parse s).any fun a => a.zone.isNone

/-- A written address is plain unless it names a zone, which shows in the text. -/
theorem plain_str {a : Address} (h : '%' ∉ a.str) : plain a.str = true := by
  rw [plain, parse_str, Option.any_some]
  cases a with
  | v4 a => rfl
  | v6 a =>
    cases hz : a.zone with
    | none => simp [Address.zone, hz]
    | some z =>
      refine absurd ?_ h
      simp [Address.str, V6.str, hz, zoneText]

/-! ## Networks -/

/-- The address of the network, not masked, and the length of the prefix. -/
inductive Network where
  | v4 (value prefixLength : Nat)
  | v6 (value prefixLength : Nat)
  deriving DecidableEq, Repr

def parsePrefix (maxLength : Nat) (s : List Char) : Option Nat :=
  if s = [] ∨ s.all Char.isDigit = false then none
  else
    let n := Nat.ofDigitChars 10 s 0
    if n ≤ maxLength then some n else none

/-- The prefix of a netmask or else of a hostmask. -/
def prefixOfMask (mask : Nat) : Option Nat :=
  ((List.range 33).find? fun n => mask = 2 ^ 32 - 2 ^ (32 - n)).or
    ((List.range 33).find? fun n => mask = 2 ^ (32 - n) - 1)

def parseNetmask (s : List Char) : Option Nat :=
  (parsePrefix 32 s).or ((parseV4 s).bind fun mask => prefixOfMask mask.value)

/-- `ipaddress.ip_network(text, strict=False)` on a text with a slash. -/
def parseNetwork (s : List Char) : Option Network :=
  match s.splitOn '/' with
  | [address, mask] =>
    ((parseV4 address).bind fun a => (parseNetmask mask).map fun n => .v4 a.value n).or
      ((parseV6 address).bind fun a => (parsePrefix 128 mask).map fun n => .v6 a.value n)
  | _ => none

/-- `address in network`; the zone does not matter. -/
def Network.contains : Network → Address → Bool
  | .v4 value n, .v4 a => value / 2 ^ (32 - n) = a.value / 2 ^ (32 - n)
  | .v6 value n, .v6 a => value / 2 ^ (128 - n) = a.value / 2 ^ (128 - n)
  | _, _ => false

end IpAddress
