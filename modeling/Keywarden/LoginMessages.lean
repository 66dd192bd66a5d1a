import Keywarden.AgentSync
import Keywarden.IpAddress
import Keywarden.Search

/-!
# Login messages of sshd

`parseMessage` of the agent's log collector. What a message tells is decided by phrases
anywhere in it, in a fixed order, and who it is about by the first delimiters in it. In the
message of a failed login the user name, which the client chooses, stands before the address.
-/
namespace Keywarden.LoginMessages

open Text Search
open Username (CaseTable)
open AgentHost (goSpace)
open AgentSync (goLowerChar)

/-- The categories of events. -/
inductive Category where
  | access | auth | network | system
  deriving DecidableEq, Repr

structure Parsed where
  eventType : String := ""
  username : List Char := []
  sourceIP : List Char := []
  sessionID : List Char := []
  deriving DecidableEq, Repr

/-- `strings.ToLower`. -/
def toLower (T : CaseTable) (s : List Char) : List Char := s.map (goLowerChar T)

def extractBetween (msg start stop : List Char) : List Char :=
  match cut start msg with
  | none => []
  | some (_, rest) =>
    match cut stop rest with
    | none => strip goSpace rest
    | some (between, _) => strip goSpace between

def parseAccess (lower msg : List Char) : Parsed :=
  if "accepted".toList <:+: lower then {
    eventType := "ssh.login.success"
    username := extractBetween msg "for ".toList " from".toList
    sourceIP := extractBetween msg "from ".toList " port".toList }
  else if "failed password".toList <:+: lower then {
    eventType := "ssh.login.fail"
    username := extractBetween msg "for ".toList " from".toList
    sourceIP := extractBetween msg "from ".toList " port".toList }
  else if "session opened".toList <:+: lower then {
    eventType := "ssh.session.open"
    username := extractBetween msg "for user ".toList " by".toList }
  else if "session closed".toList <:+: lower then {
    eventType := "ssh.session.close"
    username := extractBetween msg "for user ".toList " by".toList }
  else {}

def parseMessage (T : CaseTable) (category : Category) (msg : List Char) : Parsed :=
  if msg = [] then {}
  else
    let parsed := if category = .access then parseAccess (toLower T msg) msg else {}
    { parsed with
      username := strip goSpace parsed.username
      sourceIP := strip goSpace parsed.sourceIP
      sessionID := strip goSpace parsed.sessionID }

/-! ## The messages of failed logins -/

/-- The address of a client as sshd prints it: one word that starts with a
hexadecimal digit or a colon. -/
structure PeerAddress where
  text : List Char
  word : ∀ c ∈ text, goSpace c = false
  numeric : ∃ c ∈ text.head?, IpAddress.isHexDigit c = true ∨ c = ':'

/-- What sshd writes before the user name: whether or not the user is `known`. -/
def introduction (known : Bool) : List Char :=
  if known then "Failed password for".toList else "Failed password for invalid user".toList

def failedMessage (known : Bool) (user : List Char) (a : PeerAddress) (port : Nat) : List Char :=
  introduction known ++ " ".toList ++ user ++ " from ".toList ++ a.text ++ " port ".toList ++
    str port ++ " ssh2".toList

/-- The message counts as a failed login from the address. -/
structure Recognised (T : CaseTable) (known : Bool) (user : List Char) (a : PeerAddress)
    (port : Nat) : Prop where
  eventType : (parseMessage T .access (failedMessage known user a port)).eventType = "ssh.login.fail"
  sourceIP : (parseMessage T .access (failedMessage known user a port)).sourceIP = a.text

/-- The user name has no `accepted` in it, and where it has a `from` it goes on with the
address itself and a ` port`. An address that names a zone may have an `accepted` in it too. -/
structure Harmless (T : CaseTable) (user : List Char) (a : PeerAddress) : Prop where
  notAccepted : ¬ "accepted".toList <:+: toLower T user
  zone : ¬ "accepted".toList <:+: toLower T a.text
  delimiters : ∀ r ∈ cut "from ".toList (user ++ [' ']),
    ∃ s ∈ cut " port".toList r.2, strip goSpace s.1 = a.text

/-- The words of the message. -/
theorem failedMessage_eq (known : Bool) (user : List Char) (a : PeerAddress) (port : Nat) :
    failedMessage known user a port =
      introduction known ++ ' ' :: (user ++ ' ' :: ("from".toList ++ ' ' ::
        (a.text ++ ' ' :: ("port".toList ++ ' ' :: (str port ++ ' ' :: "ssh2".toList))))) := by
  simp [failedMessage]

theorem toLower_failedMessage (T : CaseTable) (known : Bool) (user : List Char) (a : PeerAddress)
    (port : Nat) : toLower T (failedMessage known user a port) =
      toLower T (introduction known) ++ ' ' :: (toLower T user ++ ' ' :: ("from".toList ++ ' ' ::
        (toLower T a.text ++ ' ' :: ("port".toList ++ ' ' ::
          (toLower T (str port) ++ ' ' :: "ssh2".toList))))) := by
  rw [failedMessage_eq]
  simp only [toLower, List.map_append, List.map_cons]
  rfl

/-! ## The event type -/

theorem goLowerChar_digit (T : CaseTable) {c : Char} (h : c.isDigit = true) :
    goLowerChar T c = c := by
  have hlt : c.toNat ≤ 57 := (Char.isDigit_iff_toNat.mp h).2
  rw [goLowerChar, if_pos (by omega)]
  unfold Char.toLower
  rw [dif_neg]
  rintro ⟨h₁, _⟩
  have h₁ : 65 ≤ c.toNat := h₁
  omega

theorem not_accepted_port (T : CaseTable) (port : Nat) :
    ¬ "accepted".toList <:+: toLower T (str port) := by
  intro h
  obtain ⟨c, hc, hlower⟩ := List.mem_map.mp (h.subset (by decide : 'a' ∈ "accepted".toList))
  have hdigit := isDigit_of_mem_str hc
  rw [goLowerChar_digit T hdigit] at hlower
  subst hlower
  exact absurd hdigit (by decide)

theorem toLower_introduction (T : CaseTable) (known : Bool) : toLower T (introduction known) =
    if known then "failed password for".toList else "failed password for invalid user".toList := by
  cases known <;> rfl

theorem accepted_iff (T : CaseTable) (known : Bool) (user : List Char) (a : PeerAddress)
    (port : Nat) : "accepted".toList <:+: toLower T (failedMessage known user a port) ↔
      "accepted".toList <:+: toLower T user ∨ "accepted".toList <:+: toLower T a.text := by
  have hsep : ' ' ∉ "accepted".toList := by decide
  have hintro : ¬ "accepted".toList <:+: toLower T (introduction known) := by
    rw [toLower_introduction]
    cases known <;> decide
  have hfrom : ¬ "accepted".toList <:+: "from".toList := by decide
  have hport : ¬ "accepted".toList <:+: "port".toList := by decide
  have hssh : ¬ "accepted".toList <:+: "ssh2".toList := by decide
  rw [toLower_failedMessage]
  simp only [infix_append_cons hsep, hintro, hfrom, hport, hssh, not_accepted_port, false_or, or_false]

theorem failed_infix (T : CaseTable) (known : Bool) (user : List Char) (a : PeerAddress)
    (port : Nat) : "failed password".toList <:+: toLower T (failedMessage known user a port) := by
  rw [toLower_failedMessage, toLower_introduction]
  apply List.infix_append_of_infix_left
  cases known <;> decide

/-! ## The address -/

theorem not_infix_port (a : PeerAddress) : ¬ " port".toList <:+: a.text := by
  intro h
  have hspace := a.word ' ' (h.subset (by decide))
  exact absurd hspace (by decide)

theorem not_infix_port_cons (a : PeerAddress) : ¬ " port".toList <:+: ' ' :: a.text := by
  intro h
  obtain hpre | hinfix := List.infix_cons_iff.mp h
  · obtain ⟨t, ht⟩ := hpre
    obtain ⟨c, hc, hnum⟩ := a.numeric
    have htext : a.text = 'p' :: ('o' :: 'r' :: 't' :: t) := (List.cons.inj ht).2.symm
    rw [htext, List.head?_cons, Option.mem_some_iff] at hc
    subst hc
    exact absurd hnum (by decide)
  · exact not_infix_port a hinfix

/-- The part of the message that starts with the address. -/
def addressPart (a : PeerAddress) (port : Nat) : List Char :=
  a.text ++ " port".toList ++ ' ' :: (str port ++ ' ' :: "ssh2".toList)

theorem failedMessage_address (known : Bool) (user : List Char) (a : PeerAddress) (port : Nat) :
    failedMessage known user a port =
      introduction known ++ [' '] ++ (user ++ [' '] ++ ("from ".toList ++ addressPart a port)) := by
  simp [failedMessage, addressPart]

theorem not_from_introduction (known : Bool) :
    ¬ "from".toList ++ [' '] <:+: introduction known ++ [' '] := by
  cases known <;> decide

/-- There is no delimiter in the user name: the address is found. -/
theorem extractBetween_of_none {known : Bool} {user : List Char} {a : PeerAddress} {port : Nat}
    (h : cut "from ".toList (user ++ [' ']) = none) :
    extractBetween (failedMessage known user a port) "from ".toList " port".toList = a.text := by
  have hsep : ' ' ∉ "from".toList := by decide
  have hfrom : cut "from ".toList (failedMessage known user a port) =
      some (introduction known ++ [' '] ++ (user ++ [' ']), addressPart a port) := by
    rw [failedMessage_address, ← List.append_assoc (user ++ [' ']), ← List.append_assoc,
      ← List.append_assoc]
    apply cut_append
    change ¬ "from".toList ++ [' '] <:+: introduction known ++ [' '] ++ (user ++ [' ']) ++ "from".toList
    rw [List.append_assoc, infix_append_end hsep, infix_append_end hsep, not_or, not_or]
    exact ⟨not_from_introduction known, cut_eq_none_iff.mp h, by decide⟩
  have hport : cut " port".toList (addressPart a port) =
      some (a.text, ' ' :: (str port ++ ' ' :: "ssh2".toList)) := by
    apply cut_append
    change ¬ ' ' :: "port".toList <:+: a.text ++ ' ' :: "por".toList
    rw [infix_append_start (by decide), not_or]
    exact ⟨not_infix_port a, by decide⟩
  simp only [extractBetween, hfrom, hport]
  exact strip_of_forall a.word

theorem PeerAddress.ne_nil (a : PeerAddress) : a.text ≠ [] := by
  obtain ⟨c, hc, _⟩ := a.numeric
  intro hnil
  rw [hnil] at hc
  cases hc

/-- The end of a user name that has a delimiter, with no ` port` behind it: the next ` port` is the
one after the address. -/
theorem cut_port_of_none {v : List Char} (a : PeerAddress) (port : Nat)
    (hv : ¬ " port".toList <:+: v) (hlast : ∀ d ∈ v.getLast?, d = ' ') :
    cut " port".toList (v ++ ("from ".toList ++ addressPart a port)) =
      some (v ++ "from ".toList ++ a.text, ' ' :: (str port ++ ' ' :: "ssh2".toList)) := by
  have hbefore : ¬ ' ' :: "port".toList <:+: v ++ "from".toList := by
    obtain rfl | ⟨t, d, rfl⟩ := v.eq_nil_or_concat
    · decide
    · rw [List.concat_eq_append] at hv hlast ⊢
      obtain rfl := hlast d (by simp)
      rw [List.append_assoc, List.singleton_append, infix_append_start (by decide), not_or]
      exact ⟨fun h => hv (List.infix_append_of_infix_left h), by decide⟩
  have hparts : v ++ ("from ".toList ++ addressPart a port) = v ++ "from ".toList ++ a.text ++
      " port".toList ++ ' ' :: (str port ++ ' ' :: "ssh2".toList) := by
    simp only [addressPart, List.append_assoc]
  rw [hparts]
  apply cut_append
  have hwords : v ++ "from ".toList ++ a.text ++ " port".toList.dropLast =
      v ++ "from".toList ++ ' ' :: (a.text ++ ' ' :: "por".toList) := by simp
  rw [hwords]
  change ¬ ' ' :: "port".toList <:+: _
  rw [infix_append_start (by decide), not_or, ← List.cons_append, infix_append_start (by decide),
    not_or]
  exact ⟨hbefore, not_infix_port_cons a, by decide⟩

/-- What is cut out in front of the address does not go away. -/
theorem strip_front_ne (v : List Char) (a : PeerAddress) :
    strip goSpace (v ++ "from ".toList ++ a.text) ≠ a.text := by
  have hfront : (v ++ "from ".toList).dropWhile goSpace ≠ [] := by
    rw [Ne, List.dropWhile_eq_nil_iff]
    exact fun hall => absurd (hall 'f' (by simp)) (by decide)
  rw [strip_append (List.getLast?_eq_some_getLast a.ne_nil) (a.word _ (List.getLast_mem a.ne_nil)),
    if_neg hfront]
  exact fun heq => hfront (List.append_left_eq_self.mp heq)

/-- What the user name has between its delimiter and the address is a part of what is cut out. -/
theorem extractBetween_of_some {known : Bool} {user x v : List Char} {a : PeerAddress} {port : Nat}
    (h : cut "from ".toList (user ++ [' ']) = some (x, v)) :
    extractBetween (failedMessage known user a port) "from ".toList " port".toList = a.text ↔
      ∃ s ∈ cut " port".toList v, strip goSpace s.1 = a.text := by
  obtain ⟨huser, hx⟩ := (cut_eq_some_iff (by decide)).mp h
  have hfrom : cut "from ".toList (failedMessage known user a port) =
      some (introduction known ++ [' '] ++ x, v ++ ("from ".toList ++ addressPart a port)) := by
    have hparts : failedMessage known user a port = introduction known ++ [' '] ++ x ++
        "from ".toList ++ (v ++ ("from ".toList ++ addressPart a port)) := by
      rw [failedMessage_address, huser]
      simp only [List.append_assoc]
    rw [hparts]
    apply cut_append
    change ¬ "from".toList ++ [' '] <:+: introduction known ++ [' '] ++ x ++ "from".toList
    rw [List.append_assoc, infix_append_end (by decide), not_or]
    exact ⟨not_from_introduction known, hx⟩
  cases hv : cut " port".toList v with
  | some r =>
    obtain ⟨y, z⟩ := r
    obtain ⟨rfl, hy⟩ := (cut_eq_some_iff (by decide)).mp hv
    have hport : cut " port".toList (y ++ " port".toList ++ z ++ ("from ".toList ++ addressPart a port)) =
        some (y, z ++ ("from ".toList ++ addressPart a port)) := by
      rw [List.append_assoc (y ++ _)]
      exact cut_append hy _
    simp only [extractBetween, hfrom, hport]
    exact ⟨fun h => ⟨_, rfl, h⟩, fun ⟨_, hr, h⟩ => by cases hr; exact h⟩
  | none =>
    have hlast : ∀ d ∈ v.getLast?, d = ' ' := by
      intro d hd
      have hsome := congrArg List.getLast? huser
      rw [List.getLast?_concat, List.getLast?_append, Option.mem_def.mp hd] at hsome
      exact (Option.some.inj hsome).symm
    simp only [extractBetween, hfrom, cut_port_of_none a port (cut_eq_none_iff.mp hv) hlast]
    exact iff_of_false (strip_front_ne v a) fun ⟨_, hr, _⟩ => by cases hr

theorem extractBetween_address (known : Bool) (user : List Char) (a : PeerAddress) (port : Nat) :
    extractBetween (failedMessage known user a port) "from ".toList " port".toList = a.text ↔
      ∀ r ∈ cut "from ".toList (user ++ [' ']),
        ∃ s ∈ cut " port".toList r.2, strip goSpace s.1 = a.text := by
  cases h : cut "from ".toList (user ++ [' ']) with
  | none =>
    refine iff_of_true (extractBetween_of_none h) fun r hr => ?_
    cases hr
  | some r =>
    rw [extractBetween_of_some h]
    exact ⟨fun hs r' hr => by cases hr; exact hs, fun hs => hs r rfl⟩

/-! ## The result -/

theorem strip_extractBetween (msg start stop : List Char) :
    strip goSpace (extractBetween msg start stop) = extractBetween msg start stop := by
  unfold extractBetween
  split
  · rfl
  · split
    · exact strip_strip _ _
    · exact strip_strip _ _

theorem parseMessage_failed (T : CaseTable) (known : Bool) (user : List Char) (a : PeerAddress)
    (port : Nat) :
    ((parseMessage T .access (failedMessage known user a port)).eventType =
        if "accepted".toList <:+: toLower T (failedMessage known user a port) then "ssh.login.success"
        else "ssh.login.fail") ∧
      (parseMessage T .access (failedMessage known user a port)).sourceIP =
        extractBetween (failedMessage known user a port) "from ".toList " port".toList := by
  have hne : failedMessage known user a port ≠ [] := by
    rw [failedMessage_eq]
    simp
  unfold parseMessage parseAccess
  rw [if_neg hne]
  simp only [if_true, failed_infix]
  split
  · exact ⟨rfl, strip_extractBetween _ _ _⟩
  · exact ⟨rfl, strip_extractBetween _ _ _⟩

/-- For either format, any user name, address and port: the message counts as a failed login
from the address if and only if the user name is harmless. -/
theorem recognised_iff (T : CaseTable) (known : Bool) (user : List Char) (a : PeerAddress)
    (port : Nat) : Recognised T known user a port ↔ Harmless T user a := by
  obtain ⟨htype, hsource⟩ := parseMessage_failed T known user a port
  have hno := accepted_iff T known user a port
  constructor
  · rintro ⟨ht, hs⟩
    rw [htype] at ht
    rw [hsource, extractBetween_address] at hs
    have hnot : ¬ "accepted".toList <:+: toLower T (failedMessage known user a port) := by
      intro h
      rw [if_pos h] at ht
      exact absurd ht (by decide)
    rw [hno, not_or] at hnot
    exact ⟨hnot.1, hnot.2, hs⟩
  · rintro ⟨huser, hzone, hdelim⟩
    refine ⟨?_, ?_⟩
    · rw [htype, if_neg]
      rw [hno, not_or]
      exact ⟨huser, hzone⟩
    · rw [hsource, extractBetween_address]
      exact hdelim

def localhost : PeerAddress where
  text := "127.0.0.1".toList
  word := @of_decide_eq_true _ (List.decidableBAll _ _) (by decide)
  numeric := ⟨'1', rfl, by decide⟩

/-- A user name with `accepted` in it makes a failed login one that succeeded. -/
theorem accepted_user : ¬ ∀ (T : CaseTable) (known : Bool) (user : List Char) (a : PeerAddress)
    (port : Nat), '\n' ∉ user → Recognised T known user a port := by
  intro h
  have hfail := (h .keep false "accepted".toList localhost 22 (by decide)).eventType
  exact absurd hfail (by decide +kernel)

end Keywarden.LoginMessages
