import Keywarden.AgentHost
import Keywarden.Unmarshal

/-!
# The configuration of the agent

`config.LoadOrInit` and `config.Save` down to the characters of `agent.json`. A
configuration that has its defaults is saved and loaded again as it was, and the front of a
saved text does not load.
-/
namespace Keywarden.AgentConfig

open Text Json AgentHost Unmarshal

structure PolicyConfig where
  usernameTemplate : List Char
  defaultShell : List Char
  adminGroup : List Char
  createHome : Bool
  lockOnRevoke : Bool
  deriving DecidableEq, Repr

structure Config where
  serverURL : List Char
  serverID : List Char
  serverCAPath : List Char
  syncIntervalSeconds : Int
  logBatchSize : Int
  stateDir : List Char
  accountPolicy : PolicyConfig
  deriving DecidableEq, Repr

def PolicyConfig.zero : PolicyConfig := ⟨[], [], [], false, false⟩

/-- `&Config{}`. -/
def Config.zero : Config := ⟨[], [], [], 0, 0, [], .zero⟩

/-- The policy that `accounts.Sync` is given. -/
def PolicyConfig.policy (p : PolicyConfig) : AccountPolicy where
  usernameTemplate := p.usernameTemplate
  defaultShell := p.defaultShell
  createHome := p.createHome
  lockOnRevoke := p.lockOnRevoke

/-! ## Fields -/

inductive PolicyField where
  | usernameTemplate | defaultShell | adminGroup | createHome | lockOnRevoke
  deriving DecidableEq, Repr

def PolicyField.name : PolicyField → List Char
  | usernameTemplate => "username_template".toList
  | defaultShell => "default_shell".toList
  | adminGroup => "admin_group".toList
  | createHome => "create_home".toList
  | lockOnRevoke => "lock_on_revoke".toList

def PolicyField.all : List PolicyField :=
  [.usernameTemplate, .defaultShell, .adminGroup, .createHome, .lockOnRevoke]

/-- The field that a key of an object names. -/
def PolicyField.of (key : List Char) : Option PolicyField := all.find? fun f => isField f.name key

theorem PolicyField.of_name (f : PolicyField) : of f.name = some f := by cases f <;> decide

inductive Field where
  | serverURL | serverID | serverCAPath | syncIntervalSeconds | logBatchSize | stateDir | accountPolicy
  deriving DecidableEq, Repr

def Field.name : Field → List Char
  | serverURL => "server_url".toList
  | serverID => "server_id".toList
  | serverCAPath => "server_ca_path".toList
  | syncIntervalSeconds => "sync_interval_seconds".toList
  | logBatchSize => "log_batch_size".toList
  | stateDir => "state_dir".toList
  | accountPolicy => "account_policy".toList

def Field.all : List Field :=
  [.serverURL, .serverID, .serverCAPath, .syncIntervalSeconds, .logBatchSize, .stateDir, .accountPolicy]

def Field.of (key : List Char) : Option Field := all.find? fun f => isField f.name key

theorem Field.of_name (f : Field) : of f.name = some f := by cases f <;> decide

/-! ## Writing -/

def encodePolicy (p : PolicyConfig) : Value :=
  .obj [(PolicyField.usernameTemplate.name, .str p.usernameTemplate),
    (PolicyField.defaultShell.name, .str p.defaultShell),
    (PolicyField.adminGroup.name, .str p.adminGroup),
    (PolicyField.createHome.name, .bool p.createHome),
    (PolicyField.lockOnRevoke.name, .bool p.lockOnRevoke)]

/-- A member with `omitempty`. -/
def omitString (f : Field) (s : List Char) : List (List Char × Value) :=
  if s = [] then [] else [(f.name, .str s)]

def omitInt (f : Field) (i : Int) : List (List Char × Value) :=
  if i = 0 then [] else [(f.name, number i)]

/-- The policy is a struct, which `omitempty` never omits. -/
def encodeConfig (c : Config) : Value :=
  .obj ([(Field.serverURL.name, .str c.serverURL)] ++ omitString .serverID c.serverID ++
    omitString .serverCAPath c.serverCAPath ++ omitInt .syncIntervalSeconds c.syncIntervalSeconds ++
    omitInt .logBatchSize c.logBatchSize ++ omitString .stateDir c.stateDir ++
    [(Field.accountPolicy.name, encodePolicy c.accountPolicy)])

/-- The bytes that `Save` writes. -/
def configText (c : Config) : List Char := write indented 0 (encodeConfig c)

/-! ## Reading -/

def decodePolicyField (p : PolicyConfig) (key : List Char) (v : Value) : Option PolicyConfig :=
  match PolicyField.of key with
  | none => some p
  | some .usernameTemplate => (decodeString p.usernameTemplate v).map ({ p with usernameTemplate := · })
  | some .defaultShell => (decodeString p.defaultShell v).map ({ p with defaultShell := · })
  | some .adminGroup => (decodeString p.adminGroup v).map ({ p with adminGroup := · })
  | some .createHome => (decodeBool p.createHome v).map ({ p with createHome := · })
  | some .lockOnRevoke => (decodeBool p.lockOnRevoke v).map ({ p with lockOnRevoke := · })

def decodePolicy (p : PolicyConfig) : Value → Option PolicyConfig
  | .obj members => members.foldlM (fun p m => decodePolicyField p m.1 m.2) p
  | .null => some p
  | _ => none

def decodeField (c : Config) (key : List Char) (v : Value) : Option Config :=
  match Field.of key with
  | none => some c
  | some .serverURL => (decodeString c.serverURL v).map ({ c with serverURL := · })
  | some .serverID => (decodeString c.serverID v).map ({ c with serverID := · })
  | some .serverCAPath => (decodeString c.serverCAPath v).map ({ c with serverCAPath := · })
  | some .syncIntervalSeconds =>
    (decodeInt c.syncIntervalSeconds v).map ({ c with syncIntervalSeconds := · })
  | some .logBatchSize => (decodeInt c.logBatchSize v).map ({ c with logBatchSize := · })
  | some .stateDir => (decodeString c.stateDir v).map ({ c with stateDir := · })
  | some .accountPolicy => (decodePolicy c.accountPolicy v).map ({ c with accountPolicy := · })

def decodeConfig : Value → Option Config
  | .obj members => members.foldlM (fun c m => decodeField c m.1 m.2) .zero
  | .null => some .zero
  | _ => none

/-- `json.Unmarshal(data, cfg)`. -/
def unmarshal (text : List Char) : Option Config := (parse text).bind decodeConfig

/-! ## Defaults -/

def defaultConfigPath : List Char := "/etc/keywarden/agent.json".toList
def defaultStateDir : List Char := "/var/lib/keywarden-agent".toList
def defaultSyncIntervalSeconds : Int := 30
def defaultLogBatchSize : Int := 500
def defaultUsernameTemplate : List Char := "\x7b\x7busername\x7d\x7d_\x7b\x7buser_id\x7d\x7d".toList
def defaultShell : List Char := "/bin/bash".toList
def defaultAdminGroup : List Char := "sudo".toList

/-- A text, unless it is empty. -/
def orElse (s default : List Char) : List Char := if s = [] then default else s

/-- A number, unless it is not positive. -/
def orPositive (i default : Int) : Int := if i ≤ 0 then default else i

def PolicyConfig.applyDefaults (p : PolicyConfig) : PolicyConfig :=
  { p with
    usernameTemplate := orElse p.usernameTemplate defaultUsernameTemplate
    defaultShell := orElse p.defaultShell AgentConfig.defaultShell
    adminGroup := orElse p.adminGroup defaultAdminGroup }

def applyDefaults (c : Config) : Config :=
  { c with
    syncIntervalSeconds := orPositive c.syncIntervalSeconds defaultSyncIntervalSeconds
    logBatchSize := orPositive c.logBatchSize defaultLogBatchSize
    stateDir := orElse c.stateDir defaultStateDir
    accountPolicy := c.accountPolicy.applyDefaults }

/-- `validate(cfg, false)`. -/
def validate (c : Config) : Except Failure Unit :=
  if c.serverURL = [] then .error ⟨"missing required config fields", Field.serverURL.name⟩
  else if c.syncIntervalSeconds < 5 then .error ⟨"sync_interval_seconds must be >= 5", []⟩
  else .ok ()

/-! ## Loading -/

/-- What both paths of `LoadOrInit` end with. -/
def settle (c : Config) : Except Failure Config :=
  let c := applyDefaults c
  match validate c with
  | .error e => .error e
  | .ok () => .ok c

/-- `LoadOrInit` on a file that is there; the path of the authority comes from the environment
where the file names none. -/
def load (caPath text : List Char) : Except Failure Config :=
  match unmarshal text with
  | none => .error ⟨"parse config", []⟩
  | some c => settle { c with serverCAPath := orElse c.serverCAPath caPath }

/-- `LoadOrInit` where there is no file, up to saving one. -/
def firstBoot (serverURL caPath : List Char) : Except Failure Config :=
  if serverURL = [] then .error ⟨"server url required for first boot", []⟩
  else settle { Config.zero with serverURL := serverURL, serverCAPath := caPath }

/-! ## What was saved is loaded -/

theorem decode_encodePolicy (p : PolicyConfig) : decodePolicy .zero (encodePolicy p) = some p := by
  simp only [encodePolicy, decodePolicy, List.foldlM_cons, decodePolicyField, PolicyField.of_name]
  rfl

theorem decodeField_name (c : Config) (f : Field) (v : Value) : decodeField c f.name v =
    match f with
    | .serverURL => (decodeString c.serverURL v).map ({ c with serverURL := · })
    | .serverID => (decodeString c.serverID v).map ({ c with serverID := · })
    | .serverCAPath => (decodeString c.serverCAPath v).map ({ c with serverCAPath := · })
    | .syncIntervalSeconds =>
      (decodeInt c.syncIntervalSeconds v).map ({ c with syncIntervalSeconds := · })
    | .logBatchSize => (decodeInt c.logBatchSize v).map ({ c with logBatchSize := · })
    | .stateDir => (decodeString c.stateDir v).map ({ c with stateDir := · })
    | .accountPolicy => (decodePolicy c.accountPolicy v).map ({ c with accountPolicy := · }) := by
  unfold decodeField
  rw [Field.of_name]
  cases f <;> rfl

/-- The members of a configuration, read one after another. -/
def readMembers (c : Config) (members : List (List Char × Value)) : Option Config :=
  members.foldlM (fun c m => decodeField c m.1 m.2) c

theorem readMembers_append (c : Config) (l l' : List (List Char × Value)) :
    readMembers c (l ++ l') = (readMembers c l).bind fun c => readMembers c l' := List.foldlM_append ..

theorem readMembers_singleton (c : Config) (f : Field) (v : Value) :
    readMembers c [(f.name, v)] = decodeField c f.name v := by
  rw [readMembers, List.foldlM_cons]
  exact Option.bind_fun_some _

/-- A field that holds nothing yet is set, whether its member was omitted or not. -/
theorem readMembers_omitString {c : Config} {f : Field} {s : List Char} {set : Config → List Char → Config}
    (hzero : set c [] = c) (hset : decodeField c f.name (.str s) = some (set c s)) :
    readMembers c (omitString f s) = some (set c s) := by
  unfold omitString
  split
  · next h =>
    rw [h, hzero]
    rfl
  · rw [readMembers, List.foldlM_cons, hset]
    rfl

theorem readMembers_omitInt {c : Config} {f : Field} {i : Int} {set : Config → Int → Config}
    (hzero : set c 0 = c) (hset : decodeField c f.name (number i) = some (set c i)) :
    readMembers c (omitInt f i) = some (set c i) := by
  unfold omitInt
  split
  · next h =>
    rw [h, hzero]
    rfl
  · rw [readMembers, List.foldlM_cons, hset]
    rfl

/-- Its numbers are integers of 64 bits. -/
def Ranged (c : Config) : Prop := InRange c.syncIntervalSeconds ∧ InRange c.logBatchSize

theorem decode_encodeConfig {c : Config} (h : Ranged c) : decodeConfig (encodeConfig c) = some c := by
  have hurl : decodeField .zero Field.serverURL.name (.str c.serverURL) =
      some ⟨c.serverURL, [], [], 0, 0, [], .zero⟩ := decodeField_name _ _ _
  have hid : readMembers ⟨c.serverURL, [], [], 0, 0, [], .zero⟩ (omitString .serverID c.serverID) =
      some ⟨c.serverURL, c.serverID, [], 0, 0, [], .zero⟩ :=
    @readMembers_omitString _ _ _ (fun c s => { c with serverID := s }) rfl (decodeField_name _ _ _)
  have hca : readMembers ⟨c.serverURL, c.serverID, [], 0, 0, [], .zero⟩
      (omitString .serverCAPath c.serverCAPath) =
      some ⟨c.serverURL, c.serverID, c.serverCAPath, 0, 0, [], .zero⟩ :=
    @readMembers_omitString _ _ _ (fun c s => { c with serverCAPath := s }) rfl (decodeField_name _ _ _)
  have hsync : readMembers ⟨c.serverURL, c.serverID, c.serverCAPath, 0, 0, [], .zero⟩
      (omitInt .syncIntervalSeconds c.syncIntervalSeconds) =
      some ⟨c.serverURL, c.serverID, c.serverCAPath, c.syncIntervalSeconds, 0, [], .zero⟩ := by
    refine @readMembers_omitInt _ _ _ (fun c i => { c with syncIntervalSeconds := i }) rfl ?_
    rw [decodeField_name]
    simp only [decodeInt_number h.1, Option.map_some]
  have hbatch : readMembers ⟨c.serverURL, c.serverID, c.serverCAPath, c.syncIntervalSeconds, 0, [], .zero⟩
      (omitInt .logBatchSize c.logBatchSize) =
      some ⟨c.serverURL, c.serverID, c.serverCAPath, c.syncIntervalSeconds, c.logBatchSize, [], .zero⟩ := by
    refine @readMembers_omitInt _ _ _ (fun c i => { c with logBatchSize := i }) rfl ?_
    rw [decodeField_name]
    simp only [decodeInt_number h.2, Option.map_some]
  have hdir : readMembers ⟨c.serverURL, c.serverID, c.serverCAPath, c.syncIntervalSeconds,
      c.logBatchSize, [], .zero⟩ (omitString .stateDir c.stateDir) =
      some ⟨c.serverURL, c.serverID, c.serverCAPath, c.syncIntervalSeconds, c.logBatchSize,
        c.stateDir, .zero⟩ :=
    @readMembers_omitString _ _ _ (fun c s => { c with stateDir := s }) rfl (decodeField_name _ _ _)
  have hpolicy : decodeField ⟨c.serverURL, c.serverID, c.serverCAPath, c.syncIntervalSeconds,
      c.logBatchSize, c.stateDir, .zero⟩ Field.accountPolicy.name (encodePolicy c.accountPolicy) =
      some c := by
    rw [decodeField_name]
    simp only [decode_encodePolicy, Option.map_some]
  change readMembers .zero _ = some c
  simp only [readMembers_append, readMembers_singleton, hurl, hid, hca, hsync, hbatch, hdir, hpolicy,
    Option.bind_some]

theorem valid_encodeConfig (c : Config) : Valid (encodeConfig c) := by
  have happend : ∀ l l', ValidMembers l → ValidMembers l' → ValidMembers (l ++ l') := by
    intro l l' hl hl'
    induction l with
    | nil => exact hl'
    | cons m l ih => exact ⟨hl.1, ih hl.2⟩
  have hstring : ∀ f s, ValidMembers (omitString f s) := by
    intro f s
    unfold omitString
    split
    · trivial
    · exact ⟨trivial, trivial⟩
  have hint : ∀ f i, ValidMembers (omitInt f i) := by
    intro f i
    unfold omitInt
    split
    · trivial
    · exact ⟨valid_number i, trivial⟩
  refine happend _ _ (happend _ _ (happend _ _ (happend _ _ (happend _ _ (happend _ _ ?_
    (hstring _ _)) (hstring _ _)) (hint _ _)) (hint _ _)) (hstring _ _)) ?_
  · exact ⟨trivial, trivial⟩
  · exact ⟨⟨trivial, trivial, trivial, trivial, trivial, trivial⟩, trivial⟩

theorem unmarshal_configText {c : Config} (h : Ranged c) : unmarshal (configText c) = some c := by
  rw [unmarshal, configText, parse_write indented (valid_encodeConfig c)]
  exact decode_encodeConfig h

theorem unmarshal_torn (c : Config) {n : Nat} (h : n < (configText c).length) :
    unmarshal ((configText c).take n) = none := by
  have hnone : parse ((configText c).take n) = none :=
    parse_take indented (valid_encodeConfig c) (fun _ h => by cases h) h
  rw [unmarshal, hnone]
  rfl

theorem decodeField_ranged {c c' : Config} (h : Ranged c) {key : List Char} {v : Value}
    (hfield : decodeField c key v = some c') : Ranged c' := by
  unfold decodeField at hfield
  split at hfield
  · cases hfield
    exact h
  · obtain ⟨_, -, rfl⟩ := Option.map_eq_some_iff.mp hfield
    exact h
  · obtain ⟨_, -, rfl⟩ := Option.map_eq_some_iff.mp hfield
    exact h
  · obtain ⟨_, -, rfl⟩ := Option.map_eq_some_iff.mp hfield
    exact h
  · obtain ⟨i, hi, rfl⟩ := Option.map_eq_some_iff.mp hfield
    exact ⟨decodeInt_range h.1 hi, h.2⟩
  · obtain ⟨i, hi, rfl⟩ := Option.map_eq_some_iff.mp hfield
    exact ⟨h.1, decodeInt_range h.2 hi⟩
  · obtain ⟨_, -, rfl⟩ := Option.map_eq_some_iff.mp hfield
    exact h
  · obtain ⟨_, -, rfl⟩ := Option.map_eq_some_iff.mp hfield
    exact h

theorem ranged_zero : Ranged .zero := ⟨⟨by decide, by decide⟩, ⟨by decide, by decide⟩⟩

theorem unmarshal_ranged {text : List Char} {c : Config} (h : unmarshal text = some c) : Ranged c := by
  obtain ⟨v, -, hv⟩ := Option.bind_eq_some_iff.mp h
  unfold decodeConfig at hv
  split at hv
  · exact foldlM_invariant (fun c m c' hc hm => decodeField_ranged hc hm) ranged_zero hv
  · cases hv
    exact ranged_zero
  · cases hv

/-- The environment decides the path of the authority and nothing else. -/
theorem load_eq (caPath text : List Char) :
    load caPath text =
      (load [] text).map fun c => { c with serverCAPath := orElse c.serverCAPath caPath } := by
  unfold load
  cases unmarshal text with
  | none => rfl
  | some c =>
    have hempty : orElse c.serverCAPath [] = c.serverCAPath := by
      unfold orElse
      split
      · next h => exact h.symm
      · rfl
    simp only [hempty]
    unfold settle
    have hvalid : validate (applyDefaults { c with serverCAPath := orElse c.serverCAPath caPath }) =
        validate (applyDefaults c) := rfl
    simp only [hvalid]
    cases validate (applyDefaults c) with
    | error e => rfl
    | ok u => rfl

/-- A configuration that has its defaults and passes the checks. -/
structure Settled (c : Config) : Prop where
  defaults : applyDefaults c = c
  valid : validate c = .ok ()
  ranged : Ranged c

theorem orElse_orElse (s t : List Char) : orElse (orElse s t) t = orElse s t := by
  unfold orElse
  split
  · split <;> rfl
  · rfl

theorem orPositive_orPositive (i default : Int) :
    orPositive (orPositive i default) default = orPositive i default := by
  unfold orPositive
  split
  · split <;> rfl
  · rfl

theorem applyDefaults_idem (c : Config) : applyDefaults (applyDefaults c) = applyDefaults c := by
  simp only [applyDefaults, PolicyConfig.applyDefaults, orElse_orElse, orPositive_orPositive]

theorem orPositive_range {i default : Int} (hi : InRange i) (hd : InRange default) :
    InRange (orPositive i default) := by
  unfold orPositive
  split
  · exact hd
  · exact hi

theorem applyDefaults_ranged {c : Config} (h : Ranged c) : Ranged (applyDefaults c) :=
  ⟨orPositive_range h.1 ⟨by decide, by decide⟩, orPositive_range h.2 ⟨by decide, by decide⟩⟩

theorem settled_of_settle {c c' : Config} (hranged : Ranged c)
    (h : settle c = .ok c') : Settled c' := by
  unfold settle at h
  simp only at h
  split at h
  · cases h
  · next hvalid =>
    cases h
    exact ⟨applyDefaults_idem c, hvalid, applyDefaults_ranged hranged⟩

theorem settled_of_load {caPath text : List Char} {c : Config} (h : load caPath text = .ok c) :
    Settled c := by
  unfold load at h
  split at h
  · cases h
  · next c₀ hc =>
    have hranged : Ranged c₀ := unmarshal_ranged hc
    exact @settled_of_settle { c₀ with serverCAPath := orElse c₀.serverCAPath caPath } _ hranged h

theorem settled_of_firstBoot {serverURL caPath : List Char} {c : Config}
    (h : firstBoot serverURL caPath = .ok c) : Settled c := by
  unfold firstBoot at h
  split at h
  · cases h
  · exact @settled_of_settle
      { Config.zero with serverURL := serverURL, serverCAPath := caPath } _ ranged_zero h

theorem firstBoot_fields {serverURL caPath : List Char} {c : Config}
    (h : firstBoot serverURL caPath = .ok c) :
    c.serverID = [] ∧ c.stateDir = defaultStateDir ∧ c.serverURL = serverURL := by
  unfold firstBoot at h
  split at h
  · cases h
  · unfold settle at h
    simp only at h
    split at h
    · cases h
    · cases h
      exact ⟨rfl, rfl, rfl⟩

theorem validate_ok {c : Config} (hurl : c.serverURL ≠ []) (hsync : 5 ≤ c.syncIntervalSeconds) :
    validate c = .ok () := by
  rw [validate, if_neg hurl, if_neg (Int.not_lt.mpr hsync)]

theorem firstBoot_ok {serverURL : List Char} (h : serverURL ≠ []) (caPath : List Char) :
    ∃ c, firstBoot serverURL caPath = .ok c := by
  refine ⟨applyDefaults { Config.zero with serverURL := serverURL, serverCAPath := caPath }, ?_⟩
  have hvalid : validate (applyDefaults
      { Config.zero with serverURL := serverURL, serverCAPath := caPath }) = .ok () :=
    validate_ok h (show 5 ≤ orPositive 0 defaultSyncIntervalSeconds by decide)
  unfold firstBoot settle
  rw [if_neg h]
  simp only [hvalid]

theorem Settled.withServerID {c : Config} (h : Settled c) (serverID : List Char) :
    Settled { c with serverID := serverID } :=
  ⟨by
    have hd := h.defaults
    unfold applyDefaults at hd ⊢
    rw [Config.mk.injEq] at hd ⊢
    exact ⟨hd.1, rfl, hd.2.2⟩, h.valid, h.ranged⟩

/-- A configuration that was saved is loaded as it was; only a path it does not name comes from
the environment. -/
theorem load_configText {c : Config} (h : Settled c) (caPath : List Char) :
    load caPath (configText c) = .ok { c with serverCAPath := orElse c.serverCAPath caPath } := by
  have hdefaults : applyDefaults { c with serverCAPath := orElse c.serverCAPath caPath } =
      { c with serverCAPath := orElse c.serverCAPath caPath } := by
    have hd := h.defaults
    unfold applyDefaults at hd ⊢
    rw [Config.mk.injEq] at hd ⊢
    exact ⟨hd.1, hd.2.1, rfl, hd.2.2.2⟩
  have hvalid : validate { c with serverCAPath := orElse c.serverCAPath caPath } = .ok () := h.valid
  unfold load
  rw [unmarshal_configText h.ranged]
  simp only [settle, hdefaults, hvalid]

theorem load_torn (c : Config) {n : Nat} (h : n < (configText c).length) (caPath : List Char) :
    load caPath ((configText c).take n) = .error ⟨"parse config", []⟩ := by
  rw [load, unmarshal_torn c h]

/-- Whatever file a configuration came from, once it is saved with a server id it is loaded from
the whole text and from no front of it. -/
theorem load_saved {caPath text : List Char} {c : Config} (h : load caPath text = .ok c)
    (serverID caPath' : List Char) (n : Nat) :
    load caPath' ((configText { c with serverID := serverID }).take n) =
      if n < (configText { c with serverID := serverID }).length then .error ⟨"parse config", []⟩
      else .ok { c with serverID := serverID, serverCAPath := orElse c.serverCAPath caPath' } := by
  split
  · next hn => exact load_torn _ hn caPath'
  · next hn =>
    rw [List.take_of_length_le (Nat.le_of_not_lt hn),
      load_configText ((settled_of_load h).withServerID serverID)]

/-- A file with two of the fields, one of them in capitals. -/
def minimalText : List Char :=
  "\x7b \"SERVER_URL\": \"https://keywarden\", \"log_batch_size\": -1, \"other\": [null] \x7d".toList

def minimal : Config := applyDefaults { Config.zero with serverURL := "https://keywarden".toList }

theorem minimal_saved :
    load "ca.pem".toList ((configText { minimal with serverID := "7".toList }).take 9) =
      if 9 < (configText { minimal with serverID := "7".toList }).length then
        .error ⟨"parse config", []⟩
      else .ok { minimal with
        serverID := "7".toList
        serverCAPath := orElse minimal.serverCAPath "ca.pem".toList } :=
  load_saved (show load [] minimalText = .ok minimal by decide +kernel) _ _ _

end Keywarden.AgentConfig
