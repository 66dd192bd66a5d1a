import Keywarden.LogShipping
import Keywarden.LoginMessages
import Keywarden.Models
import Keywarden.StateText
import Keywarden.Timestamps

/-!
# The events of a batch

What the agent makes of a journal entry, the JSON text in which it sends a batch of them,
and what `ingest_logs` of the server reads in that text or in what a broken write has left
of it.
-/
namespace Keywarden.LogEvents

open Rows Text Search Json Journal LogShipping LoginMessages Timestamps
open Username (CaseTable)

/-! ## An entry -/

/-- An entry of `map[string]string`. -/
structure Field where
  name : List Char
  value : List Char
  deriving DecidableEq, Repr

instance : Keyed Field (List Char) := ⟨Field.name⟩

/-- `FIELD=value`. -/
def fieldOf (s : String) : Option Field := (cut ['='] s.toList).map fun (name, value) => ⟨name, value⟩

def fieldMap (r : Record) : Table Field :=
  (r.fields.filterMap fieldOf).foldl (fun fields f => fields.upsert f) .empty

/-- The value of a field, or the empty string. -/
def get (fields : Table Field) (name : String) : List Char :=
  ((fields.find name.toList).map Field.value).getD []

/-- `int64(entry.RealtimeTimestamp)*int64(time.Microsecond)`. -/
def unixNano (r : Record) : Int := (r.realtime * 1000).bmod (2 ^ 64)

def categorize (unit identifier : List Char) : Category :=
  if unit = "sshd.service".toList ∨ identifier = "sshd".toList then .access
  else if unit = "sudo.service".toList ∨ identifier = "sudo".toList then .auth
  else if unit = "systemd-networkd.service".toList ∨ identifier = "NetworkManager".toList then .network
  else .system

def categoryText : Category → List Char
  | .access => "access".toList
  | .auth => "auth".toList
  | .network => "network".toList
  | .system => "system".toList

def defaultEventType : Category → String
  | .access => "ssh"
  | .auth => "auth"
  | .network => "network"
  | .system => "system"

/-- `Event`, with its map in the order of the keys. -/
structure Event where
  timestamp : List Char
  category : List Char
  eventType : List Char
  unit : List Char := []
  priority : List Char := []
  hostname : List Char := []
  username : List Char := []
  principal : List Char := []
  sourceIP : List Char := []
  sessionID : List Char := []
  message : List Char := []
  raw : List Char := []
  fields : List Field := []
  deriving DecidableEq, Repr

def sortedFields (fields : Table Field) : List Field :=
  fields.toList.insertionSort fun f g => StateText.before g.name f.name = false

def fromEntry (T : CaseTable) (r : Record) : Event :=
  let fields := fieldMap r
  let unit := get fields "_SYSTEMD_UNIT"
  let message := get fields "MESSAGE"
  let category := categorize unit (get fields "SYSLOG_IDENTIFIER")
  let parsed := parseMessage T category message
  { timestamp := rfc3339Nano (unixNano r)
    category := categoryText category
    eventType := (if parsed.eventType = "" then defaultEventType category else parsed.eventType).toList
    unit
    priority := get fields "PRIORITY"
    hostname := get fields "_HOSTNAME"
    username := parsed.username
    sourceIP := parsed.sourceIP
    sessionID := parsed.sessionID
    message
    fields := sortedFields fields }

/-! ## The text of a batch -/

/-- `omitempty`. -/
def omitempty (text : List Char) : Option Value := if text = [] then none else some (.str text)

def encodeFields (fields : List Field) : List (List Char × Value) :=
  fields.map fun f => (f.name, .str f.value)

/-- The members of an event by their names; some are left out. -/
def columns (e : Event) : List (String × Option Value) :=
  [("timestamp", some (.str e.timestamp)), ("category", some (.str e.category)),
    ("event_type", some (.str e.eventType)), ("unit", omitempty e.unit), ("priority", omitempty e.priority),
    ("hostname", omitempty e.hostname), ("username", omitempty e.username),
    ("principal", omitempty e.principal), ("source_ip", omitempty e.sourceIP),
    ("session_id", omitempty e.sessionID), ("message", omitempty e.message), ("raw", omitempty e.raw),
    ("fields", if e.fields = [] then none else some (.obj (encodeFields e.fields)))]

def filled (columns : List (String × Option Value)) : List (List Char × Value) :=
  columns.filterMap fun (name, v) => v.map fun v => (name.toList, v)

def members (e : Event) : List (List Char × Value) := filled (columns e)

def encodeEvent (e : Event) : Value := .obj (members e)

/-- `json.Marshal(events)`. -/
def batchText (T : CaseTable) (b : Batch) : List Char :=
  write compact 0 (.arr (b.map fun e => encodeEvent (fromEntry T e.record)))

/-! ## A request -/

/-- The bytes of a text in UTF-8. -/
def size (s : List Char) : Nat := (s.map Char.utf8Size).sum

/-- The text of the first so many bytes; there is none if they end inside a character. -/
def front : Nat → List Char → Option (List Char)
  | 0, _ => some []
  | _, [] => some []
  | n + 1, c :: s => if n + 1 < c.utf8Size then none else (front (n + 1 - c.utf8Size) s).map (c :: ·)

/-- How many bytes the body has, and their text. -/
structure Body where
  size : Nat
  text : Option (List Char)
  deriving DecidableEq, Repr

def whole (s : List Char) : Body := ⟨size s, some s⟩

def body (T : CaseTable) : Payload → Body
  | .json b => whole (batchText T b)
  | .torn b n => ⟨min n (size (batchText T b)), front n (batchText T b)⟩

/-! ## The server -/

structure LogEventIn where
  timestamp : List Char
  category : List Char
  eventType : List Char
  unit : Option (List Char)
  priority : Option (List Char)
  hostname : Option (List Char)
  username : Option (List Char)
  principal : Option (List Char)
  sourceIp : Option (List Char)
  sessionId : Option (List Char)
  message : Option (List Char)
  raw : Option (List Char)
  fields : Option (List (List Char × Value))

/-- `d[key] = value`. -/
def setItem (d : List (List Char × Value)) (key : List Char) (v : Value) : List (List Char × Value) :=
  if (d.lookup key).isSome then d.map fun m => if m.1 = key then (key, v) else m else d ++ [(key, v)]

/-- The `dict` that `json.loads` makes of an object. -/
def dict (members : List (List Char × Value)) : List (List Char × Value) :=
  members.foldl (fun d m => setItem d m.1 m.2) []

def requiredText (d : List (List Char × Value)) (name : String) : Option (List Char) :=
  match d.lookup name.toList with
  | some (.str s) => some s
  | _ => none

def optionalText (d : List (List Char × Value)) (name : String) : Option (Option (List Char)) :=
  match d.lookup name.toList with
  | none => some none
  | some .null => some none
  | some (.str s) => some (some s)
  | _ => none

def optionalDict (d : List (List Char × Value)) (name : String) :
    Option (Option (List (List Char × Value))) :=
  match d.lookup name.toList with
  | none => some none
  | some .null => some none
  | some (.obj members) => some (some (dict members))
  | _ => none

def validate : Value → Option LogEventIn
  | .obj members => do
    let d := dict members
    pure {
      timestamp := ← requiredText d "timestamp"
      category := ← requiredText d "category"
      eventType := ← requiredText d "event_type"
      unit := ← optionalText d "unit"
      priority := ← optionalText d "priority"
      hostname := ← optionalText d "hostname"
      username := ← optionalText d "username"
      principal := ← optionalText d "principal"
      sourceIp := ← optionalText d "source_ip"
      sessionId := ← optionalText d "session_id"
      message := ← optionalText d "message"
      raw := ← optionalText d "raw"
      fields := ← optionalDict d "fields" }
  | _ => none

/-- `List[LogEventIn]`. -/
def validateAll : Value → Option (List LogEventIn)
  | .arr items => items.mapM validate
  | _ => none

/-- What the web framework does before the handler is called: the size from which it refuses
a body, and the statuses of its answers to a body of more, to none, to one that is no JSON and
to one that is not of the schema. They follow its version and settings. -/
structure Framework where
  dataUploadMaxMemorySize : Nat
  tooLarge : Nat
  noBody : Nat
  noJson : Nat
  invalid : Nat

/-- The events that are accepted, or the status of the error. -/
def ingestLogs (F : Framework) (db : Db) (serverId : ServerId) (body : Body) :
    Except Nat (List LogEventIn) :=
  if F.dataUploadMaxMemorySize < body.size then .error F.tooLarge
  else if body.size = 0 then .error F.noBody
  else match body.text.bind parse with
    | none => .error F.noJson
    | some v =>
      match validateAll v with
      | none => .error F.invalid
      | some events => if (db.servers.find serverId).isNone then .error 404 else .ok events

/-- The event that the server has read. -/
def LogEventIn.event (e : LogEventIn) : Event where
  timestamp := e.timestamp
  category := e.category
  eventType := e.eventType
  unit := e.unit.getD []
  priority := e.priority.getD []
  hostname := e.hostname.getD []
  username := e.username.getD []
  principal := e.principal.getD []
  sourceIP := e.sourceIp.getD []
  sessionID := e.sessionId.getD []
  message := e.message.getD []
  raw := e.raw.getD []
  fields := (e.fields.getD []).filterMap fun m =>
    match m.2 with
    | .str s => some ⟨m.1, s⟩
    | _ => none

/-- An accepted event tells of the entry what the agent made of it, and when it was made. -/
structure Tells (T : CaseTable) (e : Entry Record) (r : LogEventIn) : Prop where
  event : r.event = fromEntry T e.record
  instant : instant r.timestamp = some (unixNano e.record)

/-- The batch is small enough for the server. -/
def Fits (F : Framework) (T : CaseTable) (b : Batch) : Prop :=
  size (batchText T b) ≤ F.dataUploadMaxMemorySize

instance (F : Framework) (T : CaseTable) (b : Batch) : Decidable (Fits F T b) := Nat.decLe _ _

/-! ## An event that was written -/

theorem setItem_new {d : List (List Char × Value)} {key : List Char} (h : d.lookup key = none) (v : Value) :
    setItem d key v = d ++ [(key, v)] := by
  simp [setItem, h]

theorem foldl_setItem (d members : List (List Char × Value))
    (h : ((d ++ members).map Prod.fst).Nodup) :
    members.foldl (fun d m => setItem d m.1 m.2) d = d ++ members := by
  induction members generalizing d with
  | nil => simp
  | cons m members ih =>
    have hnew : d.lookup m.1 = none := by
      rw [List.lookup_eq_none_iff]
      intro p hp
      rw [List.map_append, List.nodup_append] at h
      have hne := h.2.2 p.1 (List.mem_map_of_mem hp) m.1 (by simp)
      simpa using Ne.symm hne
    rw [List.foldl_cons, setItem_new hnew, ih (d ++ [(m.1, m.2)]) (by simpa using h)]
    simp

/-- An object without a key twice is its own `dict`. -/
theorem dict_of_nodup {members : List (List Char × Value)} (h : (members.map Prod.fst).Nodup) :
    dict members = members :=
  foldl_setItem [] members h

theorem names_columns (e : Event) : ((columns e).map fun c => c.1.toList).Nodup := by
  have hnames : ((columns e).map fun c => c.1.toList) = ["timestamp", "category", "event_type", "unit",
      "priority", "hostname", "username", "principal", "source_ip", "session_id", "message", "raw",
      "fields"].map String.toList := rfl
  rw [hnames]
  decide

theorem lookup_of_mem {l : List (List Char × Value)} (hl : (l.map Prod.fst).Nodup) {m : List Char × Value}
    (h : m ∈ l) : l.lookup m.1 = some m.2 := by
  induction l with
  | nil => cases h
  | cons n l ih =>
    obtain ⟨hn, hl⟩ := List.nodup_cons.mp hl
    obtain rfl | h := List.mem_cons.mp h
    · exact List.lookup_cons_self
    · have hne : m.1 ≠ n.1 := fun he => hn (List.mem_map.mpr ⟨m, h, he⟩)
      rw [List.lookup_cons, beq_false_of_ne hne]
      exact ih hl h

theorem mem_filled {l : List (String × Option Value)} {m : List Char × Value} (h : m ∈ filled l) :
    m.1 ∈ l.map fun c => c.1.toList := by
  obtain ⟨⟨name, v⟩, hc, hm⟩ := List.mem_filterMap.mp h
  obtain ⟨v, _, rfl⟩ := Option.map_eq_some_iff.mp hm
  exact List.mem_map.mpr ⟨_, hc, rfl⟩

theorem nodup_filled {l : List (String × Option Value)} (hl : (l.map fun c => c.1.toList).Nodup) :
    ((filled l).map Prod.fst).Nodup := by
  refine hl.sublist ?_
  induction l with
  | nil => exact List.Sublist.refl _
  | cons c l ih =>
    obtain ⟨name, v⟩ := c
    have htail := ih (List.nodup_cons.mp hl).2
    cases v with
    | none => exact htail.cons _
    | some v => exact htail.cons_cons _

theorem lookup_filled {l : List (String × Option Value)} (hl : (l.map fun c => c.1.toList).Nodup)
    {name : String} {v : Option Value} (h : (name, v) ∈ l) : (filled l).lookup name.toList = v := by
  cases v with
  | none =>
    rw [List.lookup_eq_none_iff]
    rintro m hm
    obtain ⟨⟨name', v'⟩, hc, hv⟩ := List.mem_filterMap.mp hm
    cases v' with
    | none => cases hv
    | some v' =>
    obtain rfl := Option.some.inj hv
    have hne : name.toList ≠ name'.toList := by
      intro hn
      have := List.inj_on_of_nodup_map hl h hc hn
      cases this
    simpa using hne
  | some v =>
    have hm : (name.toList, v) ∈ filled l := List.mem_filterMap.mpr ⟨_, h, rfl⟩
    exact lookup_of_mem (nodup_filled hl) hm

/-- What the server makes of a string that may be missing. -/
def present (text : List Char) : Option (List Char) := if text = [] then none else some text

def received (e : Event) : LogEventIn where
  timestamp := e.timestamp
  category := e.category
  eventType := e.eventType
  unit := present e.unit
  priority := present e.priority
  hostname := present e.hostname
  username := present e.username
  principal := present e.principal
  sourceIp := present e.sourceIP
  sessionId := present e.sessionID
  message := present e.message
  raw := present e.raw
  fields := if e.fields = [] then none else some (encodeFields e.fields)

theorem nodup_members (e : Event) : ((members e).map Prod.fst).Nodup := nodup_filled (names_columns e)

theorem lookup_members {e : Event} {name : String} {v : Option Value} (h : (name, v) ∈ columns e) :
    (members e).lookup name.toList = v :=
  lookup_filled (names_columns e) h

theorem requiredText_members {e : Event} {name : String} {text : List Char}
    (h : (name, some (.str text)) ∈ columns e) : requiredText (members e) name = some text := by
  rw [requiredText, lookup_members h]

theorem optionalText_members {e : Event} {name : String} {text : List Char}
    (h : (name, omitempty text) ∈ columns e) : optionalText (members e) name = some (present text) := by
  rw [optionalText, lookup_members h]
  by_cases ht : text = [] <;> simp [omitempty, present, ht]

theorem optionalDict_members {e : Event} (h : (e.fields.map Field.name).Nodup) :
    optionalDict (members e) "fields" =
      some (if e.fields = [] then none else some (encodeFields e.fields)) := by
  have hnodup : ((encodeFields e.fields).map Prod.fst).Nodup := by
    simpa [encodeFields, Function.comp_def] using h
  have hcolumn : ("fields", if e.fields = [] then none else some (.obj (encodeFields e.fields))) ∈ columns e := by
    simp [columns]
  have hlookup := lookup_members hcolumn
  rw [optionalDict, hlookup]
  by_cases he : e.fields = [] <;> simp [he, dict_of_nodup hnodup]

/-- The server reads each member that was written, and nothing for one that was left out. -/
theorem validate_encodeEvent {e : Event} (h : (e.fields.map Field.name).Nodup) :
    validate (encodeEvent e) = some (received e) := by
  have hrequired : ∀ name text, (name, some (.str text)) ∈ columns e →
      requiredText (members e) name = some text := fun _ _ => requiredText_members
  have hoptional : ∀ name text, (name, omitempty text) ∈ columns e →
      optionalText (members e) name = some (present text) := fun _ _ => optionalText_members
  simp only [encodeEvent, validate, dict_of_nodup (nodup_members e), optionalDict_members h]
  rw [hrequired "timestamp" e.timestamp (by simp [columns]),
    hrequired "category" e.category (by simp [columns]),
    hrequired "event_type" e.eventType (by simp [columns]), hoptional "unit" e.unit (by simp [columns]),
    hoptional "priority" e.priority (by simp [columns]), hoptional "hostname" e.hostname (by simp [columns]),
    hoptional "username" e.username (by simp [columns]),
    hoptional "principal" e.principal (by simp [columns]),
    hoptional "source_ip" e.sourceIP (by simp [columns]),
    hoptional "session_id" e.sessionID (by simp [columns]),
    hoptional "message" e.message (by simp [columns]), hoptional "raw" e.raw (by simp [columns])]
  rfl

theorem event_received (e : Event) : (received e).event = e := by
  have htext : ∀ text, (present text).getD [] = text := by
    intro text
    by_cases h : text = [] <;> simp [present, h]
  have hfields : ((received e).fields.getD []).filterMap (fun m =>
      match m.2 with
      | .str s => some (Field.mk m.1 s)
      | _ => none) = e.fields := by
    by_cases h : e.fields = [] <;> simp [received, encodeFields, h, List.filterMap_map]
  cases e
  simp only [received, LogEventIn.event, htext, Event.mk.injEq, true_and]
  exact hfields

/-! ## The fields of an entry -/

theorem nodup_fromEntry (T : CaseTable) (r : Record) : ((fromEntry T r).fields.map Field.name).Nodup :=
  ((List.perm_insertionSort _ _).map Field.name).nodup_iff.mpr (fieldMap r).nodup

theorem unixNano_range (r : Record) : -2 ^ 63 ≤ unixNano r ∧ unixNano r < 2 ^ 63 := by
  have hlo := Int.le_bmod (x := r.realtime * 1000) (m := 2 ^ 64) (by decide)
  have hhi := Int.bmod_lt (x := r.realtime * 1000) (m := 2 ^ 64) (by decide)
  unfold unixNano
  omega

theorem tells_received (T : CaseTable) (e : Entry Record) : Tells T e (received (fromEntry T e.record)) :=
  ⟨event_received _, instant_rfc3339Nano (fourDigits_of_int64 (unixNano_range _))⟩

/-! ## A whole body -/

theorem valid_filled (l : List (String × Option Value)) (h : ∀ c ∈ l, ∀ v ∈ c.2, Valid v) :
    ValidMembers (filled l) := by
  induction l with
  | nil => trivial
  | cons c l ih =>
    obtain ⟨name, v⟩ := c
    have hl := ih fun c hc => h c (List.mem_cons_of_mem _ hc)
    cases v with
    | none => exact hl
    | some v => exact ⟨h (name, some v) List.mem_cons_self v rfl, hl⟩

theorem valid_encodeFields (fields : List Field) : ValidMembers (encodeFields fields) := by
  induction fields with
  | nil => trivial
  | cons f fields ih => exact ⟨trivial, ih⟩

theorem valid_omitempty (text : List Char) : ∀ v ∈ omitempty text, Valid v := by
  unfold omitempty
  split
  · simp
  · rintro v hv
    cases hv
    trivial

theorem valid_encodeEvent (e : Event) : Valid (encodeEvent e) := by
  have hfields : ∀ v ∈ (if e.fields = [] then none else some (Value.obj (encodeFields e.fields))), Valid v := by
    split
    · simp
    · rintro v hv
      cases hv
      exact valid_encodeFields _
  have hstr : ∀ text, ∀ v ∈ some (Value.str text), Valid v := by
    rintro text v hv
    cases hv
    trivial
  refine valid_filled (columns e) ?_
  simp only [columns, List.forall_mem_cons]
  exact ⟨hstr _, hstr _, hstr _, valid_omitempty _, valid_omitempty _, valid_omitempty _, valid_omitempty _,
    valid_omitempty _, valid_omitempty _, valid_omitempty _, valid_omitempty _, valid_omitempty _, hfields,
    by simp⟩

theorem valid_items (events : List Event) : ValidItems (events.map encodeEvent) := by
  induction events with
  | nil => trivial
  | cons e events ih => exact ⟨valid_encodeEvent e, ih⟩

/-- The events of a batch as they are written. -/
def events (T : CaseTable) (b : Batch) : List Event := b.map fun e => fromEntry T e.record

theorem batchText_eq (T : CaseTable) (b : Batch) :
    batchText T b = write compact 0 (.arr ((events T b).map encodeEvent)) := by
  rw [batchText, events, List.map_map]
  rfl

theorem mapM_validate {l : List Event} (h : ∀ e ∈ l, (e.fields.map Field.name).Nodup) :
    (l.map encodeEvent).mapM validate = some (l.map received) := by
  induction l with
  | nil => rfl
  | cons e l ih =>
    obtain ⟨he, hl⟩ := List.forall_mem_cons.mp h
    simp [validate_encodeEvent he, ih hl]

theorem validateAll_events (T : CaseTable) (b : Batch) :
    validateAll (.arr ((events T b).map encodeEvent)) = some ((events T b).map received) := by
  refine mapM_validate fun e he => ?_
  obtain ⟨a, _, rfl⟩ := List.mem_map.mp he
  exact nodup_fromEntry T a.record

theorem parse_batchText (T : CaseTable) (b : Batch) :
    parse (batchText T b) = some (.arr ((events T b).map encodeEvent)) := by
  rw [batchText_eq]
  exact parse_write compact (valid_items _)

/-! ## A body that is cut off -/

/-- Less than all the bytes are the text of some characters fewer, if they are text at all. -/
theorem front_take {n : Nat} {s t : List Char} (h : front n s = some t) (hn : n < size s) :
    ∃ k < s.length, t = s.take k := by
  induction s generalizing n t with
  | nil => simp [size] at hn
  | cons c s ih =>
    cases n with
    | zero =>
      obtain rfl : [] = t := by simpa [front] using h
      exact ⟨0, by simp, rfl⟩
    | succ n =>
      simp only [front] at h
      split at h
      · cases h
      · obtain ⟨t', ht, rfl⟩ := Option.map_eq_some_iff.mp h
        have hsize : size (c :: s) = c.utf8Size + size s := by simp [size]
        obtain ⟨k, hk, rfl⟩ := ih ht (by omega)
        exact ⟨k + 1, by simpa using hk, rfl⟩

/-- What a broken write has left of a batch is no JSON. -/
theorem front_batchText {T : CaseTable} {b : Batch} {n : Nat} (h : n < size (batchText T b)) :
    (front n (batchText T b)).bind parse = none := by
  cases hfront : front n (batchText T b) with
  | none => rfl
  | some t =>
    obtain ⟨k, hk, rfl⟩ := front_take hfront h
    rw [batchText_eq] at hk ⊢
    exact parse_take compact (v := .arr _) (valid_items _) (fun _ h => by cases h) hk

/-! ## What the server answers -/

section Answers

variable {F : Framework} {T : CaseTable} {db : Db} {serverId : ServerId}

theorem size_batchText (T : CaseTable) (b : Batch) : size (batchText T b) ≠ 0 := by
  have hparse := parse_batchText T b
  cases htext : batchText T b with
  | nil =>
    rw [htext] at hparse
    cases hparse
  | cons c s =>
    have hpos := c.utf8Size_pos
    simp [size]
    omega

theorem ingestLogs_whole {b : Batch} (h : Fits F T b) : ingestLogs F db serverId (body T (.json b)) =
    if (db.servers.find serverId).isNone then .error 404 else .ok ((events T b).map received) := by
  have hsize : ¬ F.dataUploadMaxMemorySize < size (batchText T b) := Nat.not_lt.mpr h
  simp [ingestLogs, body, whole, hsize, size_batchText, parse_batchText, validateAll_events]

theorem ingestLogs_large {b : Batch} (h : ¬ Fits F T b) :
    ingestLogs F db serverId (body T (.json b)) = .error F.tooLarge :=
  if_pos (Nat.lt_of_not_le h)

/-- The answer to so many bytes that are no batch. -/
def Framework.answer (F : Framework) (n : Nat) : Nat :=
  if F.dataUploadMaxMemorySize < n then F.tooLarge else if n = 0 then F.noBody else F.noJson

theorem ingestLogs_torn {b : Batch} {n : Nat} (h : n < size (batchText T b)) :
    ingestLogs F db serverId (body T (.torn b n)) = .error (F.answer n) := by
  have hmin : min n (size (batchText T b)) = n := by omega
  simp only [ingestLogs, body, front_batchText h, hmin, Framework.answer]
  split_ifs <;> rfl

/-- A server that knows the agent takes a whole batch that is small enough, and reads in it what
the agent read in the journal, entry for entry; it refuses a larger one, and what a write that
broke off has left of any. -/
theorem batch_ingested (F : Framework) (T : CaseTable) (db : Db) (serverId : ServerId) (b : Batch) :
    (Fits F T b → if (db.servers.find serverId).isNone
      then ingestLogs F db serverId (body T (.json b)) = .error 404
      else ∃ events, ingestLogs F db serverId (body T (.json b)) = .ok events ∧
        List.Forall₂ (Tells T) b events) ∧
    (¬ Fits F T b → ingestLogs F db serverId (body T (.json b)) = .error F.tooLarge) ∧
    ∀ n < size (batchText T b), ingestLogs F db serverId (body T (.torn b n)) = .error (F.answer n) := by
  refine ⟨fun h => ?_, ingestLogs_large, fun n => ingestLogs_torn⟩
  rw [ingestLogs_whole h]
  split
  · rfl
  · refine ⟨_, rfl, ?_⟩
    rw [events, List.map_map, List.forall₂_map_right_iff, List.forall₂_same]
    exact fun e _ => tells_received T e

end Answers

/-- The default limit, with the answers that are given when `DEBUG` is on. -/
def debugging : Framework where
  dataUploadMaxMemorySize := 2621440
  tooLarge := 500
  noBody := 422
  noJson := 400
  invalid := 422

def oneServer : Db := { servers := Table.empty.upsert ⟨1, [], none, none, none, none, none, none⟩ }

def loginRecord : Record := ⟨1709210096123400, ["_SYSTEMD_UNIT=sshd.service", "PRIORITY=6",
  "MESSAGE=Accepted publickey for alice from 10.0.0.7 port 50000 ssh2: a=b"]⟩

/-- Of the two ways a login may come to the server, whole, or cut off in the text, one is taken. -/
theorem login_ingested :
    (∃ events,
      ingestLogs debugging oneServer 1 (body CaseTable.keep (.json [⟨0, loginRecord⟩])) = .ok events ∧
      List.Forall₂ (Tells CaseTable.keep) [⟨0, loginRecord⟩] events) ∧
    ingestLogs debugging oneServer 1 (body CaseTable.keep (.torn [⟨0, loginRecord⟩] 40)) = .error 400 := by
  have h := batch_ingested debugging .keep oneServer 1 [⟨0, loginRecord⟩]
  exact ⟨h.1 (by decide +kernel), h.2.2 40 (by decide +kernel)⟩

end Keywarden.LogEvents
