import Keywarden.AgentConfig
import Keywarden.Transitions

/-!
# The first boot of the agent

`bootstrapIfNeeded` between `LoadOrInit` and the first synchronisation: a key, an enrollment,
the two certificates and the server id in the configuration, each written in place. The
process can be killed at any character of any of these writes and is started again. Texts are
cut between their characters here, not inside one that takes several bytes.
-/
namespace Keywarden.Bootstrap

open Transitions AgentHost AgentConfig

/-- `client.EnrollResponse`, the fields that are kept. -/
structure EnrollResponse where
  serverID : List Char
  clientCert : List Char
  caCert : List Char
  deriving DecidableEq, Repr

/-- A private key in its file, which `encoding/pem` and `crypto/x509` write and read. -/
structure KeyFormat (κ : Type) where
  encode : κ → List Char
  decode : List Char → Option κ

variable {κ : Type}

/-- A file that was written holds its key; the front of it holds that key or none. -/
structure KeyFormat.Lawful (K : KeyFormat κ) : Prop where
  whole : ∀ k, K.decode (K.encode k) = some k
  front : ∀ k n, K.decode ((K.encode k).take n) = none ∨ K.decode ((K.encode k).take n) = some k

/-- The files below the paths that are written. -/
abbrev Disk := List Char → Option (List Char)

inductive Artifact where
  | config | key | clientCert | caCert
  deriving DecidableEq, Repr

structure Write where
  artifact : Artifact
  path : List Char
  text : List Char
  deriving DecidableEq, Repr

def Disk.put (disk : Disk) (path text : List Char) : Disk := fun p => if p = path then some text else disk p

/-- Where the process is killed, or where a write fails: after so many writes, and after so many
characters of the next if that has been opened. -/
structure Kill where
  writes : Nat
  opened : Option Nat
  deriving DecidableEq, Repr

def Disk.apply (disk : Disk) (writes : List Write) : Disk :=
  writes.foldl (fun disk w => disk.put w.path w.text) disk

def carryOut (killed : Option Kill) (writes : List Write) (disk : Disk) : Disk :=
  match killed with
  | none => disk.apply writes
  | some kill =>
    match writes[kill.writes]?, kill.opened with
    | some w, some n => (disk.apply (writes.take kill.writes)).put w.path (w.text.take n)
    | _, _ => disk.apply (writes.take kill.writes)

/-- A start of the process: its flags and environment, the key it would generate, what the
server answers, and whether it is killed. -/
structure Boot (κ : Type) where
  serverURL : List Char
  enrollToken : List Char
  serverCAPath : List Char
  newKey : κ
  answer : Option EnrollResponse
  killed : Option Kill

/-! ## The files -/

def clientCertName : List Char := "/agent.crt".toList
def clientKeyName : List Char := "/agent.key".toList
def caCertName : List Char := "/ca.crt".toList

def clientCertPath (c : Config) : List Char := c.stateDir ++ clientCertName
def clientKeyPath (c : Config) : List Char := c.stateDir ++ clientKeyName
def caCertPath (c : Config) : List Char := c.stateDir ++ caCertName

/-- The path that `LoadOrInit` goes by. -/
def loadPath (configPath : List Char) : List Char := orElse configPath defaultConfigPath

/-! ## The boot -/

def configWrite (path : List Char) (c : Config) : Write := ⟨.config, path, configText c⟩

/-- The writes of `LoadOrInit` and what it returns. -/
def loadOrInit (configPath : List Char) (boot : Boot κ) (disk : Disk) :
    List Write × Except Failure Config :=
  match disk (loadPath configPath) with
  | none =>
    match firstBoot boot.serverURL boot.serverCAPath with
    | .error e => ([], .error e)
    | .ok c => ([configWrite (loadPath configPath) c], .ok c)
  | some text => ([], load boot.serverCAPath text)

/-- `strings.TrimRight(serverURL, "/")`. -/
def baseURL (serverURL : List Char) : List Char := serverURL.rdropWhile (· = '/')

/-- `client.Enroll`, from the answer that comes back. -/
def enroll (serverURL : List Char) (answer : Option EnrollResponse) : Except Failure EnrollResponse :=
  if baseURL serverURL = [] then .error ⟨"server url is required", []⟩
  else
    match answer with
    | none => .error ⟨"enroll request", []⟩
    | some r =>
      if r.serverID = [] ∨ r.clientCert = [] ∨ r.caCert = [] then
        .error ⟨"enroll response missing required fields", []⟩
      else .ok r

/-- What a boot does: its writes in their order, the key it enrolled with the answer it got,
and how it ends when nothing stops it. -/
structure Plan (κ : Type) where
  writes : List Write
  enrolled : Option (κ × EnrollResponse)
  result : Except Failure Config

/-- The key file is written unless it is there. -/
def keyWrites (K : KeyFormat κ) (boot : Boot κ) (disk : Disk) (c : Config) : List Write :=
  match disk (clientKeyPath c) with
  | some _ => []
  | none => [⟨.key, clientKeyPath c, K.encode boot.newKey⟩]

def keyText (K : KeyFormat κ) (boot : Boot κ) (disk : Disk) (c : Config) : List Char :=
  (disk (clientKeyPath c)).getD (K.encode boot.newKey)

def certWrites (c : Config) (r : EnrollResponse) : List Write :=
  [⟨.clientCert, clientCertPath c, r.clientCert⟩, ⟨.caCert, caCertPath c, r.caCert⟩]

def bootstrapIfNeeded (K : KeyFormat κ) (configPath : List Char) (boot : Boot κ) (disk : Disk)
    (c : Config) : Plan κ :=
  if c.serverID ≠ [] ∧ (disk (clientCertPath c)).isSome ∧ (disk (caCertPath c)).isSome then
    ⟨[], none, .ok c⟩
  else if boot.enrollToken = [] then ⟨[], none, .error ⟨"missing enrollment token", []⟩⟩
  else
    match K.decode (keyText K boot disk c) with
    | none => ⟨keyWrites K boot disk c, none, .error ⟨"invalid private key", []⟩⟩
    | some key =>
      match enroll c.serverURL boot.answer with
      | .error e => ⟨keyWrites K boot disk c, none, .error e⟩
      | .ok r =>
        let writes := keyWrites K boot disk c ++ certWrites c r
        let c := { c with serverID := r.serverID }
        if configPath = [] then ⟨writes, some (key, r), .error ⟨"write config", []⟩⟩
        else ⟨writes ++ [configWrite configPath c], some (key, r), .ok c⟩

def main (K : KeyFormat κ) (configPath : List Char) (boot : Boot κ) (disk : Disk) : Plan κ :=
  match loadOrInit configPath boot disk with
  | (writes, .error e) => ⟨writes, none, .error e⟩
  | (writes, .ok c) =>
    let plan := bootstrapIfNeeded K configPath boot (disk.apply writes) c
    { plan with writes := writes ++ plan.writes }

/-- What outlives the process, with every answer to an enrollment and the key it was for. -/
structure Machine (κ : Type) where
  disk : Disk
  issued : List (κ × EnrollResponse)

def attempt (K : KeyFormat κ) (configPath : List Char) (m : Machine κ) (boot : Boot κ) : Machine κ where
  disk := carryOut boot.killed (main K configPath boot m.disk).writes m.disk
  issued := m.issued ++ (main K configPath boot m.disk).enrolled.toList

/-- The configuration a boot starts its work with, if it gets there. -/
def started (K : KeyFormat κ) (configPath : List Char) (m : Machine κ) (boot : Boot κ) : Option Config :=
  let plan := main K configPath boot m.disk
  match boot.killed with
  | some kill => if kill.writes < plan.writes.length then none else plan.result.toOption
  | none => plan.result.toOption

/-! ## Writes that are cut off -/

/-- What may be left of the writes: those up to one of them, and the front of that one. -/
inductive Cut : List Write → Disk → Disk → Prop where
  | stop (writes : List Write) (disk : Disk) : Cut writes disk disk
  | torn (w : Write) (writes : List Write) (disk : Disk) (n : Nat) :
      Cut (w :: writes) disk (disk.put w.path (w.text.take n))
  | next {w : Write} {writes : List Write} {disk disk' : Disk}
      (h : Cut writes (disk.put w.path w.text) disk') : Cut (w :: writes) disk disk'

theorem Disk.put_same (disk : Disk) (path text : List Char) : disk.put path text path = some text :=
  if_pos rfl

theorem Disk.put_other (disk : Disk) {path p : List Char} (h : p ≠ path) (text : List Char) :
    disk.put path text p = disk p := if_neg h

theorem cut_apply (writes : List Write) (n : Nat) (disk : Disk) :
    Cut writes disk (disk.apply (writes.take n)) := by
  induction writes generalizing n disk with
  | nil =>
    rw [List.take_nil]
    exact .stop [] disk
  | cons w writes ih =>
    cases n with
    | zero => exact .stop _ disk
    | succ n => exact .next (ih n _)

theorem cut_whole (writes : List Write) (disk : Disk) : Cut writes disk (disk.apply writes) := by
  have h := cut_apply writes writes.length disk
  rwa [List.take_length] at h

theorem cut_torn {writes : List Write} {i : Nat} {w : Write} (h : writes[i]? = some w) (n : Nat)
    (disk : Disk) : Cut writes disk ((disk.apply (writes.take i)).put w.path (w.text.take n)) := by
  induction writes generalizing i disk with
  | nil => cases h
  | cons v writes ih =>
    cases i with
    | zero =>
      cases h
      exact .torn w writes disk n
    | succ i => exact .next (ih h _)

theorem carryOut_cut (killed : Option Kill) (writes : List Write) (disk : Disk) :
    Cut writes disk (carryOut killed writes disk) := by
  unfold carryOut
  cases killed with
  | none => exact cut_whole writes disk
  | some kill =>
    simp only
    split
    · next w n hw _ => exact cut_torn hw n disk
    · exact cut_apply writes kill.writes disk

theorem cut_append {writes writes' : List Write} {disk disk' : Disk}
    (h : Cut (writes ++ writes') disk disk') :
    Cut writes disk disk' ∨ Cut writes' (disk.apply writes) disk' := by
  induction writes generalizing disk with
  | nil => exact .inr h
  | cons w writes ih =>
    cases h with
    | stop => exact .inl (.stop _ _)
    | torn n => exact .inl (.torn w writes disk _)
    | next h =>
      obtain h | h := ih h
      · exact .inl (.next h)
      · exact .inr h

theorem cut_other {writes : List Write} {disk disk' : Disk} (h : Cut writes disk disk')
    {p : List Char} (hp : ∀ w ∈ writes, w.path ≠ p) : disk' p = disk p := by
  induction h with
  | stop => rfl
  | torn w writes disk n =>
    exact disk.put_other (hp w List.mem_cons_self).symm _
  | @next w writes disk disk' h ih =>
    rw [ih fun v hv => hp v (List.mem_cons_of_mem w hv)]
    exact disk.put_other (hp w List.mem_cons_self).symm _

theorem cut_nil {disk disk' : Disk} (h : Cut [] disk disk') : disk' = disk := by
  cases h
  rfl

theorem cut_singleton {w : Write} {disk disk' : Disk} (h : Cut [w] disk disk') :
    disk' = disk ∨ ∃ n, disk' = disk.put w.path (w.text.take n) := by
  cases h with
  | stop => exact .inl rfl
  | torn n => exact .inr ⟨_, rfl⟩
  | next h =>
    refine .inr ⟨w.text.length, ?_⟩
    rw [cut_nil h, List.take_length]

/-! ## The identity of a server -/

/-- The configuration names a server that answered an enrollment, and next to it lie the
certificates of that answer and the key it was for. -/
def Identity (K : KeyFormat κ) (m : Machine κ) (c : Config) : Prop :=
  ∃ key r, (key, r) ∈ m.issued ∧ c.serverID = r.serverID ∧
    m.disk (clientCertPath c) = some r.clientCert ∧ m.disk (caCertPath c) = some r.caCert ∧
    ∃ text, m.disk (clientKeyPath c) = some text ∧ K.decode text = some key

/-- A configuration on the disk that names a server is an identity. -/
def Sound (K : KeyFormat κ) (path : List Char) (m : Machine κ) : Prop :=
  ∀ text c, m.disk path = some text → load [] text = .ok c → c.serverID ≠ [] → Identity K m c

/-- A configuration on the disk names no server. -/
def Unnamed (path : List Char) (disk : Disk) : Prop :=
  ∀ text c, disk path = some text → load [] text = .ok c → c.serverID = []

/-- The configuration is none of the other files, wherever these are. -/
def Apart (path : List Char) : Prop :=
  ¬ clientCertName <:+ path ∧ ¬ clientKeyName <:+ path ∧ ¬ caCertName <:+ path

instance (path : List Char) : Decidable (Apart path) := by
  unfold Apart
  infer_instance

theorem Identity.congr {K : KeyFormat κ} {m : Machine κ} {c c' : Config} (h : Identity K m c)
    (hid : c'.serverID = c.serverID) (hdir : c'.stateDir = c.stateDir) : Identity K m c' := by
  unfold Identity clientCertPath caCertPath clientKeyPath
  rw [hid, hdir]
  exact h

theorem Identity.mono {K : KeyFormat κ} {m : Machine κ} {c : Config} (h : Identity K m c)
    (issued : List (κ × EnrollResponse)) : Identity K ⟨m.disk, m.issued ++ issued⟩ c := by
  obtain ⟨key, r, hr, hfiles⟩ := h
  exact ⟨key, r, List.mem_append_left issued hr, hfiles⟩

theorem Sound.mono {K : KeyFormat κ} {path : List Char} {m : Machine κ} (h : Sound K path m)
    (issued : List (κ × EnrollResponse)) : Sound K path ⟨m.disk, m.issued ++ issued⟩ :=
  fun text c htext hload hne => (h text c htext hload hne).mono issued

theorem sound_of_unnamed {path : List Char} {disk : Disk} (h : Unnamed path disk) (K : KeyFormat κ)
    (issued : List (κ × EnrollResponse)) : Sound K path ⟨disk, issued⟩ :=
  fun text c htext hload hne => absurd (h text c htext hload) hne

theorem Unnamed.of_eq {path : List Char} {disk disk' : Disk} (h : Unnamed path disk)
    (heq : disk' path = disk path) : Unnamed path disk' := by
  intro text c htext
  rw [heq] at htext
  exact h text c htext

/-- Of a configuration that was written, the front names no server. -/
theorem unnamed_torn (path : List Char) (disk : Disk) {c : Config} {n : Nat}
    (h : n < (configText c).length) : Unnamed path (disk.put path ((configText c).take n)) := by
  intro text c' htext hload
  rw [disk.put_same] at htext
  cases htext
  rw [load_torn c h] at hload
  cases hload

theorem unnamed_saved (path : List Char) (disk : Disk) {c : Config} (hc : Settled c)
    (hid : c.serverID = []) : Unnamed path (disk.put path (configText c)) := by
  intro text c' htext hload
  rw [disk.put_same] at htext
  cases htext
  rw [load_configText hc] at hload
  cases hload
  exact hid

section Apart

variable {path : List Char} (h : Apart path) (c : Config)
include h

theorem clientCertPath_ne : clientCertPath c ≠ path := fun heq => h.1 (heq ▸ List.suffix_append _ _)

theorem clientKeyPath_ne : clientKeyPath c ≠ path := fun heq => h.2.1 (heq ▸ List.suffix_append _ _)

theorem caCertPath_ne : caCertPath c ≠ path := fun heq => h.2.2 (heq ▸ List.suffix_append _ _)

theorem bootstrapWrites_ne (K : KeyFormat κ) (boot : Boot κ) (disk : Disk) (r : EnrollResponse) :
    ∀ w ∈ keyWrites K boot disk c ++ certWrites c r, w.path ≠ path := by
  intro w hw
  obtain hw | hw := List.mem_append.mp hw
  · unfold keyWrites at hw
    split at hw
    · cases hw
    · rw [List.mem_singleton.mp hw]
      exact clientKeyPath_ne h c
  · simp only [certWrites, List.mem_cons, List.not_mem_nil, or_false] at hw
    obtain rfl | rfl := hw
    · exact clientCertPath_ne h c
    · exact caCertPath_ne h c

end Apart

theorem paths_ne (c : Config) : clientCertPath c ≠ caCertPath c ∧ clientKeyPath c ≠ caCertPath c ∧
    clientKeyPath c ≠ clientCertPath c := by
  refine ⟨fun h => ?_, fun h => ?_, fun h => ?_⟩
  · exact absurd (List.append_cancel_left h) (by decide)
  · exact absurd (List.append_cancel_left h) (by decide)
  · exact absurd (List.append_cancel_left h) (by decide)

/-- Once the certificates are written, they and the key that was enrolled are on the disk. -/
theorem apply_bootstrapWrites (K : KeyFormat κ) (boot : Boot κ) (disk : Disk) (c : Config)
    (r : EnrollResponse) :
    let disk' := disk.apply (keyWrites K boot disk c ++ certWrites c r)
    disk' (clientCertPath c) = some r.clientCert ∧ disk' (caCertPath c) = some r.caCert ∧
      disk' (clientKeyPath c) = some (keyText K boot disk c) := by
  obtain ⟨hcert, hkeyca, hkeycert⟩ := paths_ne c
  have hkey : (disk.apply (keyWrites K boot disk c)) (clientKeyPath c) = some (keyText K boot disk c) := by
    unfold keyWrites keyText
    cases hk : disk (clientKeyPath c) with
    | some text => exact hk
    | none => exact disk.put_same _ _
  intro disk'
  have happly : disk' = ((disk.apply (keyWrites K boot disk c)).put (clientCertPath c) r.clientCert).put
      (caCertPath c) r.caCert := List.foldl_append ..
  rw [happly]
  refine ⟨?_, Disk.put_same _ _ _, ?_⟩
  · rw [Disk.put_other _ hcert, Disk.put_same]
  · rw [Disk.put_other _ hkeyca, Disk.put_other _ hkeycert, hkey]

section Boots

variable {K : KeyFormat κ} {configPath : List Char}

/-- What `main` knows of the configuration it goes on with: it is on the disk. -/
structure Current (configPath : List Char) (disk : Disk) (c : Config) : Prop where
  settled : Settled c
  onDisk : ∃ text caPath, disk (loadPath configPath) = some text ∧
    load [] text = .ok { c with serverCAPath := caPath }

theorem Current.unnamed {disk : Disk} {c : Config} (h : Current configPath disk c)
    (hid : c.serverID = []) : Unnamed (loadPath configPath) disk := by
  obtain ⟨text, caPath, htext, hload⟩ := h.onDisk
  intro text' c' htext' hload'
  rw [htext] at htext'
  cases htext'
  rw [hload] at hload'
  cases hload'
  exact hid

theorem Current.identity {m : Machine κ} {c : Config} (h : Current configPath m.disk c)
    (hm : Sound K (loadPath configPath) m) (hid : c.serverID ≠ []) : Identity K m c := by
  obtain ⟨text, caPath, htext, hload⟩ := h.onDisk
  exact (hm text _ htext hload hid).congr rfl rfl

theorem Identity.complete {m : Machine κ} {c : Config} (h : Identity K m c) :
    (m.disk (clientCertPath c)).isSome ∧ (m.disk (caCertPath c)).isSome := by
  obtain ⟨key, r, -, -, hcert, hca, -⟩ := h
  rw [hcert, hca]
  exact ⟨rfl, rfl⟩

theorem loadPath_of_ne (h : configPath ≠ []) : loadPath configPath = configPath := if_neg h

/-- The writes of an enrollment, cut off anywhere, leave a configuration without a server or
an identity. -/
theorem sound_enrolled (hA : Apart (loadPath configPath)) {m : Machine κ} {c : Config}
    (hc : Current configPath m.disk c) (hid : c.serverID = []) (hpath : configPath ≠ []) {boot : Boot κ}
    {key : κ} {r : EnrollResponse} (hkey : K.decode (keyText K boot m.disk c) = some key) {disk' : Disk}
    (hcut : Cut (keyWrites K boot m.disk c ++ certWrites c r ++
      [configWrite configPath { c with serverID := r.serverID }]) m.disk disk') :
    Sound K (loadPath configPath) ⟨disk', m.issued ++ [(key, r)]⟩ := by
  have hun := hc.unnamed hid
  have hne := bootstrapWrites_ne hA c K boot m.disk r
  have hkept : Unnamed (loadPath configPath) (m.disk.apply (keyWrites K boot m.disk c ++ certWrites c r)) :=
    hun.of_eq (cut_other (cut_whole _ m.disk) hne)
  obtain hcut | hcut := cut_append hcut
  · exact sound_of_unnamed (hun.of_eq (cut_other hcut hne)) K _
  · obtain rfl | ⟨n, rfl⟩ := cut_singleton hcut
    · exact sound_of_unnamed hkept K _
    · rw [loadPath_of_ne hpath] at hA ⊢
      by_cases hn : n < (configText { c with serverID := r.serverID }).length
      · exact sound_of_unnamed (unnamed_torn _ _ hn) K _
      · intro text c' htext hload hne'
        rw [configWrite, List.take_of_length_le (Nat.le_of_not_lt hn)] at htext
        cases (Disk.put_same _ _ _).symm.trans htext
        rw [load_configText (hc.settled.withServerID r.serverID)] at hload
        cases hload
        obtain ⟨hcert, hca, hkeyfile⟩ := apply_bootstrapWrites K boot m.disk c r
        refine ⟨key, r, List.mem_append_right _ List.mem_cons_self, rfl, ?_, ?_, _, ?_, hkey⟩
        · exact (Disk.put_other _ (clientCertPath_ne hA c) _).trans hcert
        · exact (Disk.put_other _ (caCertPath_ne hA c) _).trans hca
        · exact (Disk.put_other _ (clientKeyPath_ne hA c) _).trans hkeyfile

theorem sound_bootstrap (hA : Apart (loadPath configPath)) {m : Machine κ}
    (hm : Sound K (loadPath configPath) m) {c : Config} (hc : Current configPath m.disk c)
    (boot : Boot κ) {disk' : Disk}
    (hcut : Cut (bootstrapIfNeeded K configPath boot m.disk c).writes m.disk disk') :
    Sound K (loadPath configPath)
      ⟨disk', m.issued ++ (bootstrapIfNeeded K configPath boot m.disk c).enrolled.toList⟩ := by
  have hsame : ∀ issued, Sound K (loadPath configPath) ⟨m.disk, m.issued ++ issued⟩ := hm.mono
  revert hcut
  unfold bootstrapIfNeeded
  split
  · intro hcut
    rw [cut_nil hcut]
    exact hsame _
  · next hneeded =>
    have hid : c.serverID = [] := by
      by_contra hne
      exact hneeded ⟨hne, (hc.identity hm hne).complete⟩
    split
    · intro hcut
      rw [cut_nil hcut]
      exact hsame _
    · have hun := hc.unnamed hid
      have hkeys : ∀ w ∈ keyWrites K boot m.disk c, w.path ≠ loadPath configPath := fun w hw =>
        bootstrapWrites_ne hA c K boot m.disk ⟨[], [], []⟩ w (List.mem_append_left _ hw)
      split
      · intro hcut
        exact sound_of_unnamed (hun.of_eq (cut_other hcut hkeys)) K _
      · next key hkey =>
        split
        · intro hcut
          exact sound_of_unnamed (hun.of_eq (cut_other hcut hkeys)) K _
        · next r hr =>
          simp only
          split
          · intro hcut
            exact sound_of_unnamed (hun.of_eq (cut_other hcut (bootstrapWrites_ne hA c K boot m.disk r))) K _
          · next hpath =>
            intro hcut
            exact sound_enrolled hA hc hid hpath hkey hcut

theorem loadOrInit_current {boot : Boot κ} {disk : Disk} {writes : List Write} {c : Config}
    (h : loadOrInit configPath boot disk = (writes, .ok c)) :
    Current configPath (disk.apply writes) c := by
  unfold loadOrInit at h
  split at h
  · split at h
    · cases h
    · next c' hc' =>
      cases h
      have hsettled := settled_of_firstBoot hc'
      exact ⟨hsettled, _, _, Disk.put_same _ _ _, load_configText hsettled []⟩
  · next text htext =>
    obtain ⟨rfl, hload⟩ := Prod.mk.inj h
    refine ⟨settled_of_load hload, text, ?_⟩
    rw [load_eq] at hload
    cases hc : load [] text with
    | error e =>
      rw [hc] at hload
      cases hload
    | ok c₀ =>
      rw [hc] at hload
      cases hload
      exact ⟨c₀.serverCAPath, htext, rfl⟩

theorem sound_loadOrInit {m : Machine κ} (hm : Sound K (loadPath configPath) m) {boot : Boot κ}
    {disk' : Disk} (hcut : Cut (loadOrInit configPath boot m.disk).1 m.disk disk') :
    Sound K (loadPath configPath) ⟨disk', m.issued⟩ := by
  revert hcut
  unfold loadOrInit
  split
  · split
    · intro hcut
      rw [cut_nil hcut]
      exact hm
    · next c hc =>
      intro hcut
      obtain rfl | ⟨n, rfl⟩ := cut_singleton hcut
      · exact hm
      · refine sound_of_unnamed ?_ K _
        by_cases hn : n < (configText c).length
        · exact unnamed_torn _ _ hn
        · rw [configWrite, List.take_of_length_le (Nat.le_of_not_lt hn)]
          exact unnamed_saved _ _ (settled_of_firstBoot hc) (firstBoot_fields hc).1
  · intro hcut
    rw [cut_nil hcut]
    exact hm

/-- No boot, and no boot that is killed, takes an identity apart. -/
theorem sound_attempt (hA : Apart (loadPath configPath)) {m : Machine κ}
    (hm : Sound K (loadPath configPath) m) (boot : Boot κ) :
    Sound K (loadPath configPath) (attempt K configPath m boot) := by
  have hcut := carryOut_cut boot.killed (main K configPath boot m.disk).writes m.disk
  unfold attempt
  generalize carryOut boot.killed (main K configPath boot m.disk).writes m.disk = disk' at hcut ⊢
  revert hcut
  unfold main
  split
  · next writes e heq =>
    intro hcut
    have hload : (loadOrInit configPath boot m.disk).1 = writes := congrArg Prod.fst heq
    rw [← hload] at hcut
    exact (sound_loadOrInit hm hcut).mono _
  · next writes c heq =>
    intro hcut
    have hload : (loadOrInit configPath boot m.disk).1 = writes := congrArg Prod.fst heq
    obtain hcut | hcut := cut_append hcut
    · rw [← hload] at hcut
      exact (sound_loadOrInit hm hcut).mono _
    · have hdisk : Sound K (loadPath configPath) ⟨m.disk.apply writes, m.issued⟩ := by
        refine @sound_loadOrInit κ K configPath m hm boot _ ?_
        rw [hload]
        exact cut_whole writes m.disk
      exact sound_bootstrap hA hdisk (loadOrInit_current heq) boot hcut

theorem sound_run (hA : Apart (loadPath configPath)) {m : Machine κ}
    (hm : Sound K (loadPath configPath) m) (boots : List (Boot κ)) :
    Sound K (loadPath configPath) (run (attempt K configPath) m boots) :=
  run_preserves (I := Sound K (loadPath configPath)) (fun _ boot h => sound_attempt hA h boot) hm boots

theorem carryOut_finished {killed : Option Kill} {writes : List Write}
    (h : ∀ kill, killed = some kill → writes.length ≤ kill.writes) (disk : Disk) :
    carryOut killed writes disk = disk.apply writes := by
  cases killed with
  | none => rfl
  | some kill =>
    have hlen := h kill rfl
    unfold carryOut
    simp only [List.getElem?_eq_none hlen, List.take_of_length_le hlen]

theorem main_of_started {m : Machine κ} {boot : Boot κ} {c : Config}
    (h : started K configPath m boot = some c) :
    (main K configPath boot m.disk).result = .ok c ∧
      (attempt K configPath m boot).disk = m.disk.apply (main K configPath boot m.disk).writes := by
  have hok : (main K configPath boot m.disk).result.toOption = some c →
      (main K configPath boot m.disk).result = .ok c := by
    cases (main K configPath boot m.disk).result with
    | error e => intro h; cases h
    | ok c => intro h; cases h; rfl
  unfold started at h
  split at h
  · next kill hkill =>
    simp only at h
    split at h
    · cases h
    · next hlen =>
      refine ⟨hok h, carryOut_finished (fun kill' hkill' => ?_) m.disk⟩
      rw [hkill] at hkill'
      cases hkill'
      exact Nat.le_of_not_lt hlen
  · next hnone => exact ⟨hok h, carryOut_finished (fun kill hkill => by simp [hnone] at hkill) m.disk⟩

theorem enroll_ok {serverURL : List Char} {answer : Option EnrollResponse} {r : EnrollResponse}
    (h : enroll serverURL answer = .ok r) : r.serverID ≠ [] := by
  unfold enroll at h
  split at h
  · cases h
  · split at h
    · cases h
    · split at h
      · cases h
      · next hne =>
        cases h
        exact fun hid => hne (.inl hid)

/-- A boot that gets through has its configuration, with a server in it, on the disk. -/
theorem bootstrap_current {disk : Disk} {boot : Boot κ} {c c' : Config}
    (hc : Current configPath disk c)
    (h : (bootstrapIfNeeded K configPath boot disk c).result = .ok c') :
    Current configPath (disk.apply (bootstrapIfNeeded K configPath boot disk c).writes) c' ∧
      c'.serverID ≠ [] := by
  revert h
  unfold bootstrapIfNeeded
  split
  · next hdone =>
    intro h
    cases h
    exact ⟨hc, hdone.1⟩
  · split
    · intro h
      cases h
    · split
      · intro h
        cases h
      · split
        · intro h
          cases h
        · next r hr =>
          simp only
          split
          · intro h
            cases h
          · next hpath =>
            intro h
            cases h
            have hsettled := hc.settled.withServerID r.serverID
            refine ⟨⟨hsettled, _, _, ?_, load_configText hsettled []⟩, enroll_ok hr⟩
            rw [loadPath_of_ne hpath, Disk.apply, List.foldl_append]
            exact Disk.put_same _ _ _

/-- A boot that gets through has an identity, whatever became of the boots before it. -/
theorem started_identity (hA : Apart (loadPath configPath)) {m : Machine κ}
    (hm : Sound K (loadPath configPath) m) {boot : Boot κ} {c : Config}
    (h : started K configPath m boot = some c) : Identity K (attempt K configPath m boot) c := by
  have hsound := sound_attempt hA hm boot
  obtain ⟨hresult, hdisk⟩ := main_of_started h
  have hcurrent : Current configPath (attempt K configPath m boot).disk c ∧ c.serverID ≠ [] := by
    rw [hdisk]
    revert hresult
    unfold main
    split
    · intro hresult
      cases hresult
    · next writes c₀ heq =>
      intro hresult
      have hboot := bootstrap_current (loadOrInit_current heq) hresult
      simp only [Disk.apply, List.foldl_append]
      exact hboot
  exact hcurrent.1.identity hsound hcurrent.2

/-! ## What a kill can spoil -/

/-- A key file that is there can be read. -/
def KeyFits (K : KeyFormat κ) (disk : Disk) (stateDir : List Char) : Prop :=
  ∀ text, disk (stateDir ++ clientKeyName) = some text → (K.decode text).isSome

/-- An agent that is started again gets through, with a new token if it needs one. -/
def Recoverable (K : KeyFormat κ) (path : List Char) (disk : Disk) : Prop :=
  match disk path with
  | none => KeyFits K disk defaultStateDir
  | some text => ∃ c, load [] text = .ok c ∧
      (c.serverID = [] → baseURL c.serverURL ≠ [] ∧ KeyFits K disk c.stateDir)

/-- The write is stopped after so many characters, and what is left cannot be used. -/
def Spoils (K : KeyFormat κ) (w : Write) (n : Nat) : Prop :=
  n < w.text.length ∧ (w.artifact = .config ∨ w.artifact = .key ∧ K.decode (w.text.take n) = none)

/-- The kill spoils the write it falls into. -/
def Damages (K : KeyFormat κ) (killed : Option Kill) (writes : List Write) : Prop :=
  ∃ kill n w, killed = some kill ∧ kill.opened = some n ∧ writes[kill.writes]? = some w ∧ Spoils K w n

/-- The writes keep what they find recoverable, but for the parts of them that are spoilt. -/
def Careful (K : KeyFormat κ) (path : List Char) : Disk → List Write → Prop
  | _, [] => True
  | disk, w :: writes =>
    (∀ n, Recoverable K path (disk.put w.path (w.text.take n)) ↔ ¬ Spoils K w n) ∧
      Careful K path (disk.put w.path w.text) writes

theorem careful_append {path : List Char} {disk : Disk} {writes writes' : List Write}
    (h : Careful K path disk writes) (h' : Careful K path (disk.apply writes) writes') :
    Careful K path disk (writes ++ writes') := by
  induction writes generalizing disk with
  | nil => exact h'
  | cons w writes ih => exact ⟨h.1, ih h.2 h'⟩

theorem Careful.whole {path : List Char} {disk : Disk} {w : Write} {writes : List Write}
    (h : Careful K path disk (w :: writes)) : Recoverable K path (disk.put w.path w.text) := by
  have hw := (h.1 w.text.length).mpr fun hspoils => Nat.lt_irrefl _ hspoils.1
  rwa [List.take_length] at hw

theorem Careful.apply {path : List Char} {disk : Disk} {writes : List Write}
    (h : Careful K path disk writes) (hd : Recoverable K path disk) (i : Nat) :
    Recoverable K path (disk.apply (writes.take i)) := by
  induction writes generalizing disk i with
  | nil =>
    rw [List.take_nil]
    exact hd
  | cons w writes ih =>
    cases i with
    | zero => exact hd
    | succ i => exact ih h.2 h.whole i

theorem Careful.get {path : List Char} {disk : Disk} {writes : List Write}
    (h : Careful K path disk writes) {i : Nat} {w : Write} (hw : writes[i]? = some w) (n : Nat) :
    Recoverable K path ((disk.apply (writes.take i)).put w.path (w.text.take n)) ↔ ¬ Spoils K w n := by
  induction writes generalizing disk i with
  | nil => cases hw
  | cons v writes ih =>
    cases i with
    | zero =>
      cases hw
      exact h.1 n
    | succ i => exact ih h.2 hw

/-- Of writes that are careful, a kill leaves a recoverable disk unless it damages one. -/
theorem recoverable_carryOut {path : List Char} {disk : Disk} {writes : List Write}
    (hd : Recoverable K path disk) (h : Careful K path disk writes) (killed : Option Kill) :
    Recoverable K path (carryOut killed writes disk) ↔ ¬ Damages K killed writes := by
  cases killed with
  | none =>
    have hwhole := h.apply hd writes.length
    rw [List.take_length] at hwhole
    refine iff_of_true hwhole ?_
    rintro ⟨kill, n, w, hkill, -⟩
    cases hkill
  | some kill =>
    unfold carryOut
    simp only
    split
    · next w n hw hn =>
      rw [h.get hw n, not_iff_not]
      constructor
      · exact fun hspoils => ⟨kill, n, w, rfl, hn, hw, hspoils⟩
      · rintro ⟨kill', n', w', hkill, hn', hw', hspoils⟩
        cases hkill
        rw [hn] at hn'
        rw [hw] at hw'
        cases hn'
        cases hw'
        exact hspoils
    · next hother =>
      refine iff_of_true (h.apply hd kill.writes) ?_
      rintro ⟨kill', n, w, hkill, hn, hw, -⟩
      cases hkill
      exact hother w n hw hn

/-! ### The writes of a boot are careful -/

theorem recoverable_some {path : List Char} {disk : Disk} {text : List Char} (h : disk path = some text) :
    Recoverable K path disk ↔ ∃ c, load [] text = .ok c ∧
      (c.serverID = [] → baseURL c.serverURL ≠ [] ∧ KeyFits K disk c.stateDir) := by
  unfold Recoverable
  rw [h]

/-- A write of a configuration: the front of it does not load, and all of it does. -/
theorem careful_config {path : List Char} {disk : Disk} {c : Config} (hc : Settled c)
    (hfits : c.serverID = [] → baseURL c.serverURL ≠ [] ∧
      KeyFits K (disk.put path (configText c)) c.stateDir) :
    Careful K path disk [configWrite path c] := by
  refine ⟨fun n => ?_, trivial⟩
  change Recoverable K path (disk.put path ((configText c).take n)) ↔ ¬ Spoils K (configWrite path c) n
  rw [recoverable_some (Disk.put_same disk path _)]
  by_cases hn : n < (configText c).length
  · refine iff_of_false ?_ fun h => h ⟨hn, .inl rfl⟩
    rintro ⟨c', hload, -⟩
    rw [load_torn c hn] at hload
    cases hload
  · refine iff_of_true ?_ fun h => hn h.1
    rw [List.take_of_length_le (Nat.le_of_not_lt hn), load_configText hc]
    exact ⟨_, rfl, hfits⟩

/-- Next to a configuration without a server it is the key file that decides. -/
theorem Current.recoverable_iff {disk : Disk} {c : Config} (h : Current configPath disk c)
    (hid : c.serverID = []) : Recoverable K (loadPath configPath) disk ↔
      baseURL c.serverURL ≠ [] ∧ KeyFits K disk c.stateDir := by
  obtain ⟨text, caPath, htext, hload⟩ := h.onDisk
  rw [recoverable_some htext, hload]
  constructor
  · rintro ⟨c', heq, hfits⟩
    cases heq
    exact hfits hid
  · exact fun hfits => ⟨_, rfl, fun _ => hfits⟩

theorem Current.put {disk : Disk} {c : Config} (h : Current configPath disk c) {p : List Char}
    (hp : p ≠ loadPath configPath) (text : List Char) : Current configPath (disk.put p text) c := by
  obtain ⟨config, caPath, hconfig, hload⟩ := h.onDisk
  exact ⟨h.settled, config, caPath, (disk.put_other hp.symm text).trans hconfig, hload⟩

theorem Current.apply {disk : Disk} {c : Config} (h : Current configPath disk c) {writes : List Write}
    (hp : ∀ w ∈ writes, w.path ≠ loadPath configPath) : Current configPath (disk.apply writes) c := by
  induction writes generalizing disk with
  | nil => exact h
  | cons w writes ih =>
    exact ih (h.put (hp w List.mem_cons_self) w.text) fun v hv => hp v (List.mem_cons_of_mem w hv)

theorem keyFits_put {disk : Disk} {p stateDir : List Char} (hp : stateDir ++ clientKeyName ≠ p)
    (text : List Char) : KeyFits K (disk.put p text) stateDir ↔ KeyFits K disk stateDir := by
  unfold KeyFits
  rw [disk.put_other hp]

/-- A write of a file that is neither the configuration nor the key. -/
theorem careful_other {disk : Disk} {c : Config} (hc : Current configPath disk c)
    (hid : c.serverID = []) (hd : Recoverable K (loadPath configPath) disk) {w : Write}
    (hw : w.path ≠ loadPath configPath) (hkey : clientKeyPath c ≠ w.path)
    (hart : w.artifact ≠ .config ∧ w.artifact ≠ .key) {writes : List Write}
    (hrest : Careful K (loadPath configPath) (disk.put w.path w.text) writes) :
    Careful K (loadPath configPath) disk (w :: writes) := by
  refine ⟨fun n => ?_, hrest⟩
  rw [(hc.put hw _).recoverable_iff hid]
  refine iff_of_true ?_ ?_
  · obtain ⟨hurl, hfits⟩ := (hc.recoverable_iff hid).mp hd
    exact ⟨hurl, (keyFits_put hkey _).mpr hfits⟩
  · rintro ⟨-, h | ⟨h, -⟩⟩
    · exact hart.1 h
    · exact hart.2 h

theorem careful_certs (hA : Apart (loadPath configPath)) {disk : Disk} {c : Config}
    (hc : Current configPath disk c) (hid : c.serverID = [])
    (hd : Recoverable K (loadPath configPath) disk) (r : EnrollResponse) :
    Careful K (loadPath configPath) disk (certWrites c r) := by
  obtain ⟨-, hkeyca, hkeycert⟩ := paths_ne c
  have hcert : Current configPath (disk.put (clientCertPath c) r.clientCert) c :=
    hc.put (clientCertPath_ne hA c) _
  have hd' : Recoverable K (loadPath configPath) (disk.put (clientCertPath c) r.clientCert) := by
    rw [hcert.recoverable_iff hid]
    obtain ⟨hurl, hfits⟩ := (hc.recoverable_iff hid).mp hd
    exact ⟨hurl, (keyFits_put hkeycert _).mpr hfits⟩
  refine careful_other hc hid hd (clientCertPath_ne hA c) hkeycert ⟨by simp, by simp⟩ ?_
  exact careful_other hcert hid hd' (caCertPath_ne hA c) hkeyca ⟨by simp, by simp⟩ trivial

/-- A key that is written is lost only if what is left of its file does not decode. -/
theorem careful_key (hK : K.Lawful) (hA : Apart (loadPath configPath)) {disk : Disk} {c : Config}
    (hc : Current configPath disk c) (hid : c.serverID = [])
    (hd : Recoverable K (loadPath configPath) disk) (boot : Boot κ) :
    Careful K (loadPath configPath) disk (keyWrites K boot disk c) := by
  unfold keyWrites
  split
  · trivial
  · refine ⟨fun n => ?_, trivial⟩
    obtain ⟨hurl, -⟩ := (hc.recoverable_iff hid).mp hd
    rw [(hc.put (clientKeyPath_ne hA c) _).recoverable_iff hid]
    have hfits : ∀ text, KeyFits K (disk.put (clientKeyPath c) text) c.stateDir ↔
        (K.decode text).isSome := by
      intro text
      constructor
      · exact fun h => h text (Disk.put_same _ _ _)
      · intro h text' htext'
        cases (Disk.put_same _ _ _).symm.trans htext'
        exact h
    rw [hfits]
    constructor
    · rintro ⟨-, hsome⟩ ⟨-, h | ⟨-, hnone⟩⟩
      · cases h
      · rw [hnone] at hsome
        cases hsome
    · intro hsafe
      refine ⟨hurl, ?_⟩
      by_cases hn : n < (K.encode boot.newKey).length
      · rw [← Option.ne_none_iff_isSome]
        exact fun hnone => hsafe ⟨hn, .inr ⟨rfl, hnone⟩⟩
      · rw [List.take_of_length_le (Nat.le_of_not_lt hn), hK.whole]
        rfl

theorem careful_bootstrap (hK : K.Lawful) (hA : Apart (loadPath configPath)) {m : Machine κ}
    (hm : Sound K (loadPath configPath) m) {c : Config} (hc : Current configPath m.disk c)
    (hd : Recoverable K (loadPath configPath) m.disk) (boot : Boot κ) :
    Careful K (loadPath configPath) m.disk (bootstrapIfNeeded K configPath boot m.disk c).writes := by
  unfold bootstrapIfNeeded
  split
  · trivial
  · next hneeded =>
    have hid : c.serverID = [] := by
      by_contra hne
      exact hneeded ⟨hne, (hc.identity hm hne).complete⟩
    have hkey := careful_key hK hA hc hid hd boot
    have hwhole := hkey.apply hd (keyWrites K boot m.disk c).length
    rw [List.take_length] at hwhole
    have hkeys : ∀ w ∈ keyWrites K boot m.disk c, w.path ≠ loadPath configPath := fun w hw =>
      bootstrapWrites_ne hA c K boot m.disk ⟨[], [], []⟩ w (List.mem_append_left _ hw)
    have hcerts : ∀ r, Careful K (loadPath configPath) m.disk
        (keyWrites K boot m.disk c ++ certWrites c r) := fun r =>
      careful_append hkey (careful_certs hA (hc.apply hkeys) hid hwhole r)
    split
    · trivial
    · split
      · exact hkey
      · split
        · exact hkey
        · next r hr =>
          simp only
          split
          · exact hcerts r
          · next hpath =>
            refine careful_append (hcerts r) ?_
            rw [loadPath_of_ne hpath]
            exact careful_config (hc.settled.withServerID r.serverID) fun h => absurd h (enroll_ok hr)

theorem careful_main (hK : K.Lawful) (hA : Apart (loadPath configPath)) {m : Machine κ}
    (hm : Sound K (loadPath configPath) m) (hd : Recoverable K (loadPath configPath) m.disk)
    {boot : Boot κ} (hurl : boot.serverURL ≠ [] → baseURL boot.serverURL ≠ []) :
    Careful K (loadPath configPath) m.disk (main K configPath boot m.disk).writes := by
  have hload : Careful K (loadPath configPath) m.disk (loadOrInit configPath boot m.disk).1 := by
    unfold loadOrInit
    split
    · next hnone =>
      split
      · trivial
      · next c hc =>
        obtain ⟨-, hdir, hserver⟩ := firstBoot_fields hc
        have hgiven : boot.serverURL ≠ [] := by
          intro hnil
          simp [firstBoot, hnil] at hc
        refine careful_config (settled_of_firstBoot hc) fun _ => ⟨hserver ▸ hurl hgiven, ?_⟩
        have hfits : KeyFits K m.disk c.stateDir := by
          unfold Recoverable at hd
          rw [hnone] at hd
          rw [hdir]
          exact hd
        exact (keyFits_put (clientKeyPath_ne hA c) _).mpr hfits
    · trivial
  unfold main
  split
  · next writes e heq =>
    have hwrites : (loadOrInit configPath boot m.disk).1 = writes := congrArg Prod.fst heq
    rwa [hwrites] at hload
  · next writes c heq =>
    have hwrites : (loadOrInit configPath boot m.disk).1 = writes := congrArg Prod.fst heq
    rw [hwrites] at hload
    have hdisk : Sound K (loadPath configPath) ⟨m.disk.apply writes, m.issued⟩ := by
      refine @sound_loadOrInit κ K configPath m hm boot _ ?_
      rw [hwrites]
      exact cut_whole writes m.disk
    have hwhole := hload.apply hd writes.length
    rw [List.take_length] at hwhole
    exact careful_append hload
      (careful_bootstrap hK hA hdisk (loadOrInit_current heq) hwhole boot)

theorem recoverable_attempt_iff (hK : K.Lawful) (hA : Apart (loadPath configPath)) {m : Machine κ}
    (hm : Sound K (loadPath configPath) m) (hd : Recoverable K (loadPath configPath) m.disk)
    {boot : Boot κ} (hurl : boot.serverURL ≠ [] → baseURL boot.serverURL ≠ []) :
    Recoverable K (loadPath configPath) (attempt K configPath m boot).disk ↔
      ¬ Damages K boot.killed (main K configPath boot m.disk).writes :=
  recoverable_carryOut hd (careful_main hK hA hm hd hurl) boot.killed

/-- A boot that nothing stops, with a token, a server and an answer to its enrollment. -/
structure Able (boot : Boot κ) : Prop where
  undisturbed : boot.killed = none
  server : baseURL boot.serverURL ≠ []
  token : boot.enrollToken ≠ []
  answered : ∃ r, boot.answer = some r ∧ r.serverID ≠ [] ∧ r.clientCert ≠ [] ∧ r.caCert ≠ []

theorem enroll_able {boot : Boot κ} (hable : Able boot) (serverURL : List Char) :
    (∃ r, enroll serverURL boot.answer = .ok r) ↔ baseURL serverURL ≠ [] := by
  obtain ⟨r, hanswer, hid, hcert, hca⟩ := hable.answered
  unfold enroll
  by_cases hurl : baseURL serverURL = []
  · rw [if_pos hurl]
    refine iff_of_false ?_ fun h => h hurl
    rintro ⟨_, h⟩
    cases h
  · rw [if_neg hurl, hanswer]
    simp only
    rw [if_neg (by simp [hid, hcert, hca])]
    exact iff_of_true ⟨r, rfl⟩ hurl

theorem keyText_decodes (hK : K.Lawful) (boot : Boot κ) (disk : Disk) (c : Config) :
    (∃ key, K.decode (keyText K boot disk c) = some key) ↔ KeyFits K disk c.stateDir := by
  unfold keyText KeyFits clientKeyPath
  cases disk (c.stateDir ++ clientKeyName) with
  | none => exact iff_of_true ⟨_, hK.whole boot.newKey⟩ fun text h => by cases h
  | some text =>
    rw [Option.getD_some, ← Option.isSome_iff_exists]
    constructor
    · intro h text' htext'
      cases htext'
      exact h
    · exact fun h => h text rfl

theorem bootstrap_ok_iff (hK : K.Lawful) (hpath : configPath ≠ []) {boot : Boot κ} (hable : Able boot)
    {disk : Disk} {c : Config} (hid : c.serverID = []) :
    (∃ c', (bootstrapIfNeeded K configPath boot disk c).result = .ok c') ↔
      baseURL c.serverURL ≠ [] ∧ KeyFits K disk c.stateDir := by
  rw [← enroll_able hable, ← keyText_decodes hK boot]
  unfold bootstrapIfNeeded
  rw [if_neg (fun h => h.1 hid), if_neg hable.token]
  cases hkey : K.decode (keyText K boot disk c) with
  | none =>
    refine iff_of_false ?_ ?_
    · rintro ⟨c', h⟩
      cases h
    · rintro ⟨-, key, h⟩
      cases h
  | some key =>
    cases hr : enroll c.serverURL boot.answer with
    | error e =>
      refine iff_of_false ?_ ?_
      · rintro ⟨c', h⟩
        cases h
      · rintro ⟨⟨r, h⟩, -⟩
        cases h
    | ok r =>
      simp only
      rw [if_neg hpath]
      exact iff_of_true ⟨_, rfl⟩ ⟨⟨r, rfl⟩, key, rfl⟩

theorem started_iff_recoverable (hK : K.Lawful) (hA : Apart configPath) (hpath : configPath ≠ [])
    {m : Machine κ} (hm : Sound K configPath m) {boot : Boot κ} (hable : Able boot) :
    (∃ c, started K configPath m boot = some c) ↔ Recoverable K configPath m.disk := by
  have hresult : (∃ c, started K configPath m boot = some c) ↔
      ∃ c, (main K configPath boot m.disk).result = .ok c := by
    unfold started
    rw [hable.undisturbed]
    simp only
    cases (main K configPath boot m.disk).result with
    | error e => simp [Except.toOption]
    | ok c => simp [Except.toOption]
  rw [hresult]
  have hlp := loadPath_of_ne hpath
  have hwrites : ∀ writes c, loadOrInit configPath boot m.disk = (writes, .ok c) →
      ((∃ c', (main K configPath boot m.disk).result = .ok c') ↔
        ∃ c', (bootstrapIfNeeded K configPath boot (m.disk.apply writes) c).result = .ok c') := by
    intro writes c heq
    unfold main
    rw [heq]
  cases hdisk : m.disk configPath with
  | none =>
    have hne : boot.serverURL ≠ [] := fun h => hable.server (by rw [h]; rfl)
    obtain ⟨c, hc⟩ := firstBoot_ok hne boot.serverCAPath
    obtain ⟨hid, hdir, hurl⟩ := firstBoot_fields hc
    have heq : loadOrInit configPath boot m.disk = ([configWrite configPath c], .ok c) := by
      unfold loadOrInit
      rw [hlp, hdisk, hc]
    rw [hwrites _ c heq, bootstrap_ok_iff hK hpath hable hid, hdir, hurl]
    change _ ∧ KeyFits K (m.disk.put configPath (configText c)) defaultStateDir ↔ _
    rw [← hdir, keyFits_put (clientKeyPath_ne hA c), hdir]
    unfold Recoverable
    rw [hdisk]
    exact and_iff_right hable.server
  | some text =>
    rw [recoverable_some hdisk]
    cases hload : load [] text with
    | error e =>
      refine iff_of_false ?_ ?_
      · rintro ⟨c, h⟩
        unfold main loadOrInit at h
        rw [hlp, hdisk] at h
        simp only [load_eq boot.serverCAPath, hload] at h
        cases h
      · rintro ⟨c, h, -⟩
        cases h
    | ok c =>
      have heq : loadOrInit configPath boot m.disk =
          ([], .ok { c with serverCAPath := orElse c.serverCAPath boot.serverCAPath }) := by
        unfold loadOrInit
        rw [hlp, hdisk]
        simp only [load_eq boot.serverCAPath, hload]
        rfl
      rw [hwrites _ _ heq]
      by_cases hid : c.serverID = []
      · refine (@bootstrap_ok_iff _ _ _ hK hpath _ hable _
          { c with serverCAPath := orElse c.serverCAPath boot.serverCAPath } hid).trans ?_
        constructor
        · exact fun h => ⟨c, rfl, fun _ => h⟩
        · rintro ⟨c', heq', h⟩
          cases heq'
          exact h hid
      · refine iff_of_true ?_ ⟨c, rfl, fun h => absurd h hid⟩
        have hcomplete := (hm text c hdisk hload hid).complete
        unfold bootstrapIfNeeded
        rw [if_pos ⟨hid, hcomplete⟩]
        exact ⟨_, rfl⟩

end Boots

/-! ## Runs of boots -/

section Runs

variable {K : KeyFormat κ} {configPath : List Char}

/-- Whatever became of the boots before it, an agent that starts its work has the certificates
and the key of one enrollment, and the id of the server that was enrolled. -/
theorem boots_identity (hA : Apart (loadPath configPath)) {disk : Disk}
    (hfresh : Unnamed (loadPath configPath) disk) (boots : List (Boot κ)) {boot : Boot κ} {c : Config}
    (h : started K configPath (run (attempt K configPath) ⟨disk, []⟩ boots) boot = some c) :
    Identity K (attempt K configPath (run (attempt K configPath) ⟨disk, []⟩ boots) boot) c :=
  started_identity hA (sound_run hA (sound_of_unnamed hfresh K []) boots) h

/-- Along a run of boots, none of them with a server of slashes alone, an undisturbed one would get
through at any time if and only if none of the kills so far has damaged the configuration or the
key. -/
theorem boots_recover_iff (hK : K.Lawful) (hA : Apart configPath) (hpath : configPath ≠ []) {disk : Disk}
    (hfresh : Unnamed configPath disk) (hd : Recoverable K configPath disk) {boots : List (Boot κ)}
    (hurl : ∀ boot ∈ boots, boot.serverURL ≠ [] → baseURL boot.serverURL ≠ []) {last : Boot κ}
    (hlast : Able last) :
    Always (attempt K configPath) (fun m => ∃ c, started K configPath m last = some c) ⟨disk, []⟩ boots ↔
      Along (attempt K configPath)
        (fun m boot => ¬ Damages K boot.killed (main K configPath boot m.disk).writes) ⟨disk, []⟩ boots := by
  have hlp := loadPath_of_ne hpath
  have hsound : Sound K configPath ⟨disk, []⟩ := sound_of_unnamed hfresh K []
  have hA' : Apart (loadPath configPath) := by rwa [hlp]
  have hstep : ∀ m boot, Sound K configPath m → Sound K configPath (attempt K configPath m boot) := by
    intro m boot hm
    have h := @sound_attempt κ K configPath hA' m (by rwa [hlp]) boot
    rwa [hlp] at h
  refine always_iff_along (E := fun _ boot => boot.serverURL ≠ [] → baseURL boot.serverURL ≠ []) (I := Sound K configPath)
    (fun m boot _ hm => hstep m boot hm) (fun m boot hserver hm hstarted => ?_)
    (along_of_mem _ hurl) hsound ((started_iff_recoverable hK hA hpath hsound hlast).mpr hd)
  have hrec := (started_iff_recoverable hK hA hpath hm hlast).mp hstarted
  rw [started_iff_recoverable hK hA hpath (hstep m boot hm) hlast]
  have h := @recoverable_attempt_iff κ K configPath hK hA' m (by rwa [hlp]) (by rwa [hlp]) boot hserver
  rwa [hlp] at h

end Runs

/-! ## A boot that is killed between the certificates -/

def twoKeys : KeyFormat Bool where
  encode k := if k then "1.".toList else "0.".toList
  decode text := if text = "1.".toList then some true else if text = "0.".toList then some false else none

theorem twoKeys_lawful : twoKeys.Lawful where
  whole k := by cases k <;> decide
  front k n := by
    obtain _ | _ | n := n
    · exact .inl rfl
    · cases k
      · exact .inl rfl
      · exact .inl rfl
    · right
      have hwhole : (twoKeys.encode k).take (n + 2) = twoKeys.encode k :=
        List.take_of_length_le (by cases k <;> simp [twoKeys])
      rw [hwhole]
      cases k <;> decide

def interrupted : Boot Bool where
  serverURL := "https://keywarden".toList
  enrollToken := "first".toList
  serverCAPath := []
  newKey := true
  answer := some ⟨"7".toList, "certificate of 7".toList, "authority".toList⟩
  killed := some ⟨3, some 4⟩

def startedAgain : Boot Bool :=
  { interrupted with
    enrollToken := "second".toList
    newKey := false
    answer := some ⟨"8".toList, "certificate of 8".toList, "authority".toList⟩
    killed := none }

def enrolledConfig : Config :=
  applyDefaults { Config.zero with serverURL := interrupted.serverURL, serverID := "8".toList }

theorem interrupted_identity : Identity twoKeys (attempt twoKeys defaultConfigPath
    (run (attempt twoKeys defaultConfigPath) ⟨fun _ => none, []⟩ [interrupted]) startedAgain) enrolledConfig :=
  boots_identity (by decide) (fun _ _ h => by cases h) [interrupted] (by decide +kernel)

theorem interrupted_recovers :
    Always (attempt twoKeys defaultConfigPath)
      (fun m => ∃ c, started twoKeys defaultConfigPath m startedAgain = some c)
      ⟨fun _ => none, []⟩ [interrupted] ↔
    Along (attempt twoKeys defaultConfigPath)
      (fun m boot => ¬ Damages twoKeys boot.killed (main twoKeys defaultConfigPath boot m.disk).writes)
      ⟨fun _ => none, []⟩ [interrupted] := by
  have hurl : ∀ boot ∈ [interrupted], boot.serverURL ≠ [] → baseURL boot.serverURL ≠ [] := by
    intro boot hboot _
    rw [List.mem_singleton.mp hboot]
    decide
  have hable : Able startedAgain :=
    ⟨rfl, by decide, by decide, _, rfl, by decide, by decide, by decide⟩
  have hfits : Recoverable twoKeys defaultConfigPath fun _ => none := by
    intro text htext
    cases htext
  exact boots_recover_iff twoKeys_lawful (by decide) (by decide) (fun _ _ h => by cases h) hfits hurl
    hable

end Keywarden.Bootstrap
