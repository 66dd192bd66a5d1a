import Mathlib.Data.List.Sort
import Keywarden.AgentSync
import Keywarden.Unmarshal

/-!
# The text of the state file

`loadState` and `saveState` down to the characters of `accounts.json`: a map of accounts
written as indented JSON with its keys in order, and read back into it. Overwriting the
file in place leaves the front of a text behind when it fails half way; it is cut between
two characters here, not inside one that takes several bytes.
-/
namespace Keywarden.StateText

open Rows Text Json Transitions AgentHost AgentSync Unmarshal Username

/-- An entry of `state.Users`. -/
structure Entry where
  key : List Char
  account : ManagedAccount
  deriving DecidableEq, Repr

instance : Keyed Entry (List Char) := ⟨Entry.key⟩

/-- `map[string]managedAccount`. -/
abbrev Users := Table Entry

/-! ## Writing -/

/-- `st.Users[strconv.Itoa(id)] = account`. -/
def entry (account : ManagedAccount) : Entry := ⟨str account.userID, account⟩

def stateUsers (desired : List ManagedAccount) : Users :=
  desired.foldl (fun users account => users.upsert (entry account)) .empty

def userIDField : List Char := "user_id".toList
def systemUsernameField : List Char := "system_username".toList
def usersField : List Char := "users".toList

def encodeAccount (account : ManagedAccount) : Value :=
  .obj [(userIDField, number account.userID), (systemUsernameField, .str account.systemUser)]

/-- The first text comes before the second. -/
def before (s t : List Char) : Bool := s.lex t fun c d => decide (c.toNat < d.toNat)

/-- A map is written in the order of its keys. -/
def sorted (users : Users) : List Entry :=
  users.toList.insertionSort fun e e' => before e'.key e.key = false

def encodeState (users : Users) : Value :=
  .obj [(usersField, .obj ((sorted users).map fun e => (e.key, encodeAccount e.account)))]

/-- The bytes that are written for the map. -/
def stateText (desired : List ManagedAccount) : List Char :=
  write indented 0 (encodeState (stateUsers desired))

/-- How `saveState` ends: the directory cannot be made, the file cannot be opened, or the
write is `cut` after so many characters. -/
inductive Saving where
  | ok | refused | unopened
  | cut (written : Nat)
  deriving DecidableEq, Repr

/-- The file at `statePath`. -/
abbrev File := Option (List Char)

def saveState (saving : Saving) (desired : List ManagedAccount) (file : File) : Option Failure × File :=
  match saving with
  | .ok => (none, some (stateText desired))
  | .refused => (some ⟨"create state dir", []⟩, file)
  | .unopened => (some ⟨"write state", []⟩, file)
  | .cut n => (some ⟨"write state", []⟩, some ((stateText desired).take n))

/-! ## Reading -/

/-- One member of an account; a member of another name is skipped. -/
def decodeAccountField (account : ManagedAccount) (key : List Char) (v : Value) : Option ManagedAccount :=
  if isField userIDField key then (decodeInt account.userID v).map ({ account with userID := · })
  else if isField systemUsernameField key then
    (decodeString account.systemUser v).map ({ account with systemUser := · })
  else some account

def decodeAccount : Value → Option ManagedAccount
  | .obj members => members.foldlM (fun account m => decodeAccountField account m.1 m.2) ⟨0, []⟩
  | .null => some ⟨0, []⟩
  | _ => none

/-- The map `users`, filled further by each member. -/
def decodeUsers (users : Users) : Value → Option Users
  | .obj members =>
    members.foldlM (fun users m => (decodeAccount m.2).map fun a => users.upsert ⟨m.1, a⟩) users
  | .null => some .empty
  | _ => none

def decodeState : Value → Option Users
  | .obj members =>
    members.foldlM (fun users m => if isField usersField m.1 then decodeUsers users m.2 else some users)
      .empty
  | .null => some .empty
  | _ => none

/-- `json.Unmarshal`. -/
def unmarshal (text : List Char) : Option Users := (parse text).bind decodeState

def loadState (readable : Bool) : File → Except Failure Users
  | none => .ok .empty
  | some text =>
    if readable then
      match unmarshal text with
      | some users => .ok users
      | none => .error ⟨"parse state", []⟩
    else .error ⟨"read state", []⟩

/-! ## What was written is read -/

theorem str_inj {i j : Int} (h : str i = str j) : i = j := by
  have hpos : ∀ m n : Nat, Nat.toDigits 10 m ≠ '-' :: Nat.toDigits 10 n := by
    intro m n hmn
    have hall := digits_toDigits m
    rw [hmn] at hall
    cases hall
  cases i with
  | ofNat m =>
    cases j with
    | ofNat n =>
      have := str_injective h
      rw [this]
    | negSucc n =>
      rw [Int.ofNat_eq_natCast, str_natCast, str_negSucc] at h
      exact absurd h (hpos _ _)
  | negSucc m =>
    cases j with
    | ofNat n =>
      rw [Int.ofNat_eq_natCast, str_natCast, str_negSucc] at h
      exact absurd h.symm (hpos _ _)
    | negSucc n =>
      rw [str_negSucc, str_negSucc, ← str_natCast, ← str_natCast] at h
      have := str_injective (List.cons.inj h).2
      omega

theorem isField_other : isField userIDField systemUsernameField = false := by decide

theorem decode_encodeAccount {a : ManagedAccount} (h : InRange a.userID) :
    decodeAccount (encodeAccount a) = some a := by
  have hid : decodeAccountField ⟨0, []⟩ userIDField (number a.userID) = some ⟨a.userID, []⟩ := by
    rw [decodeAccountField, isField_self, if_pos rfl, decodeInt_number h]
    rfl
  have hname : decodeAccountField ⟨a.userID, []⟩ systemUsernameField (.str a.systemUser) = some a := by
    rw [decodeAccountField, isField_other, if_neg Bool.false_ne_true, isField_self, if_pos rfl]
    rfl
  rw [encodeAccount, decodeAccount, List.foldlM_cons, hid]
  exact hname

theorem mem_foldl_entries (l : List Entry) (hl : (l.map Entry.key).Nodup) (t : Users) (e : Entry) :
    e ∈ l.foldl (fun t e => t.upsert e) t ↔ e ∈ l ∨ (e ∈ t ∧ e.key ∉ l.map Entry.key) := by
  induction l generalizing t with
  | nil => simp
  | cons a l ih =>
    obtain ⟨ha, hl⟩ := List.nodup_cons.mp hl
    rw [List.foldl_cons, ih hl, Table.mem_upsert, List.mem_cons, List.map_cons, List.mem_cons]
    change e ∈ l ∨ (e = a ∨ e ∈ t ∧ e.key ≠ a.key) ∧ _ ↔ _
    constructor
    · rintro (h | ⟨rfl | ⟨h, hne⟩, hkey⟩)
      · exact .inl (.inr h)
      · exact .inl (.inl rfl)
      · exact .inr ⟨h, fun hk => hk.elim hne hkey⟩
    · rintro ((rfl | h) | ⟨h, hkey⟩)
      · exact .inr ⟨.inl rfl, ha⟩
      · exact .inl h
      · exact .inr ⟨.inr ⟨h, fun hk => hkey (.inl hk)⟩, fun hk => hkey (.inr hk)⟩

theorem nodup_map_entry {l : List ManagedAccount} (h : (l.map ManagedAccount.userID).Nodup) :
    ((l.map entry).map Entry.key).Nodup := by
  have hkeys : (l.map entry).map Entry.key = (l.map ManagedAccount.userID).map str := by
    rw [List.map_map, List.map_map]
    rfl
  rw [hkeys]
  exact h.map fun _ _ => str_inj

theorem mem_stateUsers {l : List ManagedAccount} (h : (l.map ManagedAccount.userID).Nodup) (e : Entry) :
    e ∈ stateUsers l ↔ e ∈ l.map entry := by
  have hfold : stateUsers l = (l.map entry).foldl (fun t e => t.upsert e) .empty := by
    rw [List.foldl_map]
    rfl
  rw [hfold, mem_foldl_entries _ (nodup_map_entry h)]
  simp

theorem mem_sorted (users : Users) (e : Entry) : e ∈ sorted users ↔ e ∈ users :=
  (List.perm_insertionSort _ _).mem_iff

theorem nodup_sorted (users : Users) : ((sorted users).map Entry.key).Nodup :=
  ((List.perm_insertionSort _ _).map Entry.key).nodup_iff.mpr users.nodup

theorem decodeMembers_encode (l : List Entry) (h : ∀ e ∈ l, InRange e.account.userID) (t : Users) :
    (l.map fun e => (e.key, encodeAccount e.account)).foldlM (fun users m =>
      (decodeAccount m.2).map fun a => users.upsert (Entry.mk m.1 a)) t =
      some (l.foldl (fun t e => t.upsert e) t) := by
  induction l generalizing t with
  | nil => rfl
  | cons e l ih =>
    rw [List.map_cons, List.foldlM_cons, decode_encodeAccount (h e List.mem_cons_self)]
    exact ih (fun e he => h e (List.mem_cons_of_mem _ he)) _

/-- The map that was written is the map that is read. -/
theorem decode_encodeState {users : Users} (h : ∀ e ∈ users, InRange e.account.userID) :
    ∃ read, decodeState (encodeState users) = some read ∧ ∀ e, e ∈ read ↔ e ∈ users := by
  refine ⟨(sorted users).foldl (fun t e => t.upsert e) .empty, ?_, fun e => ?_⟩
  · rw [encodeState, decodeState, List.foldlM_cons,
      if_pos (isField_self usersField)]
    have hmembers := decodeMembers_encode (sorted users)
      (fun e he => h e ((mem_sorted users e).mp he)) .empty
    rw [decodeUsers, hmembers]
    rfl
  · rw [mem_foldl_entries _ (nodup_sorted users), mem_sorted]
    simp

theorem valid_encodeMembers (l : List Entry) :
    ValidMembers (l.map fun e => (e.key, encodeAccount e.account)) := by
  induction l with
  | nil => trivial
  | cons e l ih => exact ⟨⟨valid_number _, trivial, trivial⟩, ih⟩

theorem valid_encodeState (users : Users) : Valid (encodeState users) :=
  ⟨valid_encodeMembers _, trivial⟩

/-- What is read of a whole text is, in some order, what was written. -/
theorem unmarshal_stateText {l : List ManagedAccount} (hkeys : (l.map ManagedAccount.userID).Nodup)
    (hrange : ∀ a ∈ l, InRange a.userID) :
    ∃ users, unmarshal (stateText l) = some users ∧ (users.toList.map Entry.account).Perm l := by
  have hin : ∀ e ∈ stateUsers l, InRange e.account.userID := by
    intro e he
    obtain ⟨a, ha, rfl⟩ := List.mem_map.mp ((mem_stateUsers hkeys e).mp he)
    exact hrange a ha
  obtain ⟨users, hdecode, hmem⟩ := decode_encodeState hin
  refine ⟨users, ?_, ?_⟩
  · rw [unmarshal, stateText, parse_write indented (valid_encodeState _)]
    exact hdecode
  · have hperm : users.toList.Perm (l.map entry) :=
      (List.perm_ext_iff_of_nodup (users.nodup.of_map _) ((nodup_map_entry hkeys).of_map _)).mpr
        fun e => (hmem e).trans (mem_stateUsers hkeys e)
    have haccounts := hperm.map Entry.account
    rwa [List.map_map, show Entry.account ∘ entry = id from rfl, List.map_id] at haccounts

/-- The front of a text is not read at all. -/
theorem unmarshal_torn {l : List ManagedAccount} {n : Nat} (h : n < (stateText l).length) :
    unmarshal ((stateText l).take n) = none := by
  have hnone : parse ((stateText l).take n) = none :=
    parse_take indented (valid_encodeState _) (fun _ h => by cases h) h
  rw [unmarshal, hnone]
  rfl

/-! ## Synchronisations over the text -/

/-- A call of `Sync`, with what the environment decides about the file. -/
structure TextCall where
  users : List AccessUser
  faults : Faults := noFaults
  currentOrder : Iteration := .listed
  desiredOrder : Iteration := .listed
  readable : Bool := true
  saving : Saving := .ok

structure TextSystem where
  host : Host
  file : File

def sync (T : CaseTable) (policy : AccountPolicy) (call : TextCall) (sys : TextSystem) :
    Result × Option Failure × TextSystem :=
  match loadState call.readable sys.file with
  | .error e => ({}, some e, sys)
  | .ok current =>
    let want := desired T policy call.users
    let (groupErr, host) := ensureGroup call.faults sys.host
    let p := (call.currentOrder.visit (current.toList.map Entry.account)).foldl
      (revokeOne call.faults policy want) ⟨groupErr, host, {}⟩
    let p := (call.desiredOrder.visit want.toList).foldl (provisionOne call.faults policy) p
    let (saveErr, file) := saveState call.saving want.toList sys.file
    (p.result, p.syncErr.or saveErr, ⟨p.host, file⟩)

/-- What a file is to the synchronisation. -/
inductive Represents : File → StateFile → Prop where
  | absent : Represents none .absent
  | torn (text : List Char) (h : unmarshal text = none) : Represents (some text) .torn
  | saved (text : List Char) (users : Users) (l : List ManagedAccount)
      (h : unmarshal text = some users) (hperm : (users.toList.map Entry.account).Perm l) :
      Represents (some text) (.saved l)

def Saving.outcome : Saving → SaveOutcome
  | .ok => .ok
  | .refused => .refused
  | .unopened => .unopened
  | .cut _ => .torn

/-- The two calls are given the same and meet the same. -/
structure Same (call : TextCall) (call' : SyncCall) : Prop where
  users : call'.users = call.users
  faults : call'.faults = call.faults
  desiredOrder : call'.desiredOrder = call.desiredOrder
  readable : call'.readable = call.readable
  save : call'.save = call.saving.outcome

/-- What Go sees to: its ids are integers of 64 bits, and a write that fails is short. -/
structure WellFormed (T : CaseTable) (policy : AccountPolicy) (call : TextCall) : Prop where
  range : ∀ u ∈ call.users, InRange u.userID
  short : ∀ n, call.saving = .cut n → n < (stateText (desired T policy call.users).toList).length

/-- An order in which the second list is gone through as the first one is. -/
def through (it : Iteration) {l l' : List ManagedAccount} (h : l.Perm l') : Iteration where
  visit x := if x = l' then it.visit l else x
  perm x := by
    split
    · next hx =>
      rw [hx]
      exact (it.perm l).trans h
    · exact List.Perm.refl x

section Simulation

variable {T : CaseTable} {policy : AccountPolicy}

theorem saveState_represents {call : TextCall} (hcall : WellFormed T policy call) {file : File}
    {file' : StateFile} (h : Represents file file') :
    (saveState call.saving (desired T policy call.users).toList file).1 =
      (AgentSync.saveState call.saving.outcome (desired T policy call.users).toList file').1 ∧
    Represents (saveState call.saving (desired T policy call.users).toList file).2
      (AgentSync.saveState call.saving.outcome (desired T policy call.users).toList file').2 := by
  have hrange : ∀ a ∈ (desired T policy call.users).toList, InRange a.userID := by
    intro a ha
    obtain ⟨u, hu, rfl⟩ := mem_desired ha
    exact hcall.range u hu
  cases hs : call.saving with
  | ok =>
    obtain ⟨users, hread, hperm⟩ := unmarshal_stateText (desired T policy call.users).nodup hrange
    exact ⟨rfl, .saved _ users _ hread hperm⟩
  | refused => exact ⟨rfl, h⟩
  | unopened => exact ⟨rfl, h⟩
  | cut n => exact ⟨rfl, .torn _ (unmarshal_torn (hcall.short n hs))⟩

/-- The call, but with another order for the accounts of the file. -/
def TextCall.with (call : TextCall) (currentOrder : Iteration) : SyncCall where
  users := call.users
  faults := call.faults
  currentOrder := currentOrder
  desiredOrder := call.desiredOrder
  readable := call.readable
  save := call.saving.outcome

theorem same_with (call : TextCall) (currentOrder : Iteration) : Same call (call.with currentOrder) :=
  ⟨rfl, rfl, rfl, rfl, rfl⟩

/-- What a call tells its caller and leaves behind is the same in both. -/
structure Agrees (r : Result × Option Failure × TextSystem) (r' : Result × Option Failure × System) :
    Prop where
  result : r.1 = r'.1
  failure : r.2.1 = r'.2.1
  host : r.2.2.host = r'.2.2.host
  file : Represents r.2.2.file r'.2.2.file

theorem agrees_error (e : Failure) (host : Host) {f : File} {file : StateFile} (h : Represents f file) :
    Agrees ({}, some e, ⟨host, f⟩) ({}, some e, ⟨host, file⟩) := ⟨rfl, rfl, rfl, h⟩

/-- The loops see the accounts of the file in one order, whichever list they come from. -/
theorem agrees_loaded {call : TextCall} (hcall : WellFormed T policy call) {sys : TextSystem}
    {file : StateFile} (h : Represents sys.file file) {users : Users} {l : List ManagedAccount}
    (hload : loadState call.readable sys.file = .ok users)
    (hload' : AgentSync.loadState call.readable file = .ok l) {order : Iteration}
    (horder : order.visit l = call.currentOrder.visit (users.toList.map Entry.account)) :
    Agrees (sync T policy call sys) (AgentSync.sync T policy (call.with order) ⟨sys.host, file⟩) := by
  obtain ⟨herr, hfile⟩ := saveState_represents hcall h
  rw [sync, hload]
  rw [AgentSync.sync]
  simp only [TextCall.with, hload', horder]
  exact ⟨rfl, by rw [herr], rfl, hfile⟩

/-- A call over the text of the file is one over what the file is to it. -/
theorem sync_simulates {call : TextCall} (hcall : WellFormed T policy call) {sys : TextSystem}
    {file : StateFile} (h : Represents sys.file file) :
    ∃ call', Same call call' ∧
      Agrees (sync T policy call sys) (AgentSync.sync T policy call' ⟨sys.host, file⟩) := by
  obtain ⟨host, f⟩ := sys
  cases h with
  | absent =>
    exact ⟨_, same_with call call.currentOrder, agrees_loaded hcall .absent rfl rfl rfl⟩
  | torn text ht =>
    refine ⟨_, same_with call call.currentOrder, ?_⟩
    cases hr : call.readable with
    | false =>
      have herror := agrees_error ⟨"read state", []⟩ host (.torn text ht)
      simpa [sync, loadState, AgentSync.sync, AgentSync.loadState, TextCall.with, hr] using herror
    | true =>
      have herror := agrees_error ⟨"parse state", []⟩ host (.torn text ht)
      simpa [sync, loadState, AgentSync.sync, AgentSync.loadState, TextCall.with, hr, ht] using herror
  | saved text users l ht hperm =>
    cases hr : call.readable with
    | false =>
      refine ⟨_, same_with call call.currentOrder, ?_⟩
      have herror := agrees_error ⟨"read state", []⟩ host (.saved text users l ht hperm)
      simpa [sync, loadState, AgentSync.sync, AgentSync.loadState, TextCall.with, hr] using herror
    | true =>
      have hload : loadState call.readable (some text) = .ok users := by simp [loadState, hr, ht]
      have hload' : AgentSync.loadState call.readable (.saved l) = .ok l := by
        simp [AgentSync.loadState, hr]
      exact ⟨_, same_with call (through call.currentOrder hperm),
        @agrees_loaded T policy call hcall ⟨host, some text⟩ _ (.saved text users l ht hperm) _ _ hload
          hload' _ (if_pos rfl)⟩

end Simulation

/-- A call with what can be seen of it from outside: its result, its error and the host after it. -/
def told (T : CaseTable) (policy : AccountPolicy) (sys : TextSystem) (call : TextCall) :
    (Result × Option Failure × Host) × TextSystem :=
  let r := sync T policy call sys
  ((r.1, r.2.1, r.2.2.host), r.2.2)

/-- The same, of a call over the abstract file. -/
def abstractTold (T : CaseTable) (policy : AccountPolicy) (sys : System) (call : SyncCall) :
    (Result × Option Failure × Host) × System :=
  let r := AgentSync.sync T policy call sys
  ((r.1, r.2.1, r.2.2.host), r.2.2)

/-- Over any run the text of the file and what it is to the synchronisation cannot be told apart. -/
theorem runs_simulate (T : CaseTable) (policy : AccountPolicy) {sys : TextSystem} {file : StateFile}
    (h : Represents sys.file file) {calls : List TextCall}
    (hcalls : ∀ call ∈ calls, WellFormed T policy call) :
    ∃ calls', List.Forall₂ Same calls calls' ∧
      outputs (told T policy) sys calls = outputs (abstractTold T policy) ⟨sys.host, file⟩ calls' := by
  refine outputs_simulates (R := fun s s' => s.host = s'.host ∧ Represents s.file s'.file)
    (fun s s' call hs hcall => ?_) ⟨rfl, h⟩ hcalls
  obtain ⟨host, file'⟩ := s'
  obtain ⟨rfl, hfile⟩ := hs
  obtain ⟨call', hsame, hagrees⟩ := sync_simulates hcall hfile
  refine ⟨call', hsame, ?_, hagrees.host, hagrees.file⟩
  simp only [told, abstractTold, hagrees.result, hagrees.failure, hagrees.host]

section Sample

def samplePolicy : AccountPolicy := ⟨"{{username}}".toList, "/bin/bash".toList, true, true⟩
def alice : AccessUser := ⟨7, "alice".toList, "alice_7".toList⟩
def freshHost : Host := { accounts := fun _ => none, group := false }

/-- The account is provisioned, then revoked by a call whose write stops after nine characters. -/
def provisionThenTear : List TextCall :=
  [{ users := [alice] }, { users := [], saving := .cut 9 }, { users := [alice] }]

example : stateText (desired CaseTable.keep samplePolicy [alice]).toList =
    ("\x7b\n  \"users\": \x7b\n    \"7\": \x7b\n      \"user_id\": 7,\n" ++
      "      \"system_username\": \"alice_7\"\n    \x7d\n  \x7d\n\x7d").toList := by decide +kernel

theorem wellFormed_sample : ∀ call ∈ provisionThenTear, WellFormed CaseTable.keep samplePolicy call := by
  have halice : ∀ u ∈ [alice], InRange u.userID := by
    intro u hu
    rw [List.mem_singleton.mp hu]
    exact ⟨by decide, by decide⟩
  intro call hcall
  simp only [provisionThenTear, List.mem_cons, List.not_mem_nil, or_false] at hcall
  obtain rfl | rfl | rfl := hcall
  · exact ⟨halice, fun n h => by cases h⟩
  · refine ⟨fun u hu => ?_, fun n h => ?_⟩
    · cases hu
    · cases h
      decide +kernel
  · exact ⟨halice, fun n h => by cases h⟩

theorem alice_torn : ∃ calls', List.Forall₂ Same provisionThenTear calls' ∧
    outputs (told CaseTable.keep samplePolicy) ⟨freshHost, none⟩ provisionThenTear =
      outputs (abstractTold CaseTable.keep samplePolicy) ⟨freshHost, .absent⟩ calls' :=
  runs_simulate CaseTable.keep samplePolicy .absent wellFormed_sample

end Sample

/-- What every call tells that finds a file it cannot parse, or cannot read. -/
def stuck (host : Host) (call : TextCall) : Result × Option Failure × Host :=
  ({}, some ⟨if call.readable then "parse state" else "read state", []⟩, host)

theorem told_stuck (T : CaseTable) (policy : AccountPolicy) {text : List Char}
    (h : unmarshal text = none) (host : Host) (call : TextCall) :
    told T policy ⟨host, some text⟩ call = (stuck host call, ⟨host, some text⟩) := by
  unfold told sync loadState stuck
  cases call.readable with
  | false => rfl
  | true => simp only [if_true, h]

theorem outputs_stuck (T : CaseTable) (policy : AccountPolicy) {text : List Char}
    (h : unmarshal text = none) (host : Host) (calls : List TextCall) :
    outputs (told T policy) ⟨host, some text⟩ calls = calls.map (stuck host) := by
  induction calls with
  | nil => rfl
  | cons call calls ih => rw [outputs, told_stuck T policy h, ih, List.map_cons]

/-- After a write that was cut short no call reports or changes anything any more. -/
theorem cut_is_final (T : CaseTable) (policy : AccountPolicy) {sys : TextSystem} {call : TextCall}
    (hcall : WellFormed T policy call) {n : Nat} (hcut : call.saving = .cut n) {users : Users}
    (hload : loadState call.readable sys.file = .ok users) (calls : List TextCall) :
    outputs (told T policy) sys (call :: calls) =
      (told T policy sys call).1 :: calls.map (stuck (sync T policy call sys).2.2.host) := by
  have hfile : (told T policy sys call).2 = ⟨(sync T policy call sys).2.2.host,
      some ((stateText (desired T policy call.users).toList).take n)⟩ := by
    rw [told, sync, hload]
    simp only [hcut, saveState]
  rw [outputs, hfile, outputs_stuck T policy (unmarshal_torn (hcall.short n hcut))]

theorem torn_at_once : outputs (told CaseTable.keep samplePolicy) ⟨freshHost, none⟩
    ({ users := [], saving := .cut 9 } :: [{ users := [alice] }]) =
      (told CaseTable.keep samplePolicy ⟨freshHost, none⟩
        { users := [], saving := .cut 9 }).1 :: [{ users := [alice] }].map
          (stuck (sync CaseTable.keep samplePolicy { users := [], saving := .cut 9 }
            ⟨freshHost, none⟩).2.2.host) :=
  cut_is_final CaseTable.keep samplePolicy
    (wellFormed_sample _ (List.mem_cons_of_mem _ List.mem_cons_self)) rfl rfl _

end Keywarden.StateText
