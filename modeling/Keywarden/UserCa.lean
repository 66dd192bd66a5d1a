import Mathlib.Data.List.Infix
import Keywarden.AgentHost
import Keywarden.Transitions

/-!
# The user CA on the host

`EnsureCA` of the agent writes the public key of the CA and the configuration of sshd and
reloads sshd when this call has changed one of them. The need to reload that an earlier
call left behind is kept nowhere.
-/
namespace Keywarden.UserCa

open Text Transitions
open AgentHost (goSpace)

/-- The files, and whether one has been changed since sshd was last reloaded. -/
structure Host where
  caKey : Option (List Char)
  dropIn : Option (List Char)
  config : Option (List Char)
  unloaded : Bool
  deriving DecidableEq, Repr

/-- How `os.WriteFile` ends. When it fails, the file is as it was or holds what is left. -/
inductive Writing where
  | done
  | failed (error : String) (left : Option (List Char))
  deriving DecidableEq, Repr

/-- For each program that is found: whether it reloads `sshd`, and whether it reloads `ssh`. -/
structure Reloading where
  systemctl : Option (Bool × Bool)
  service : Option (Bool × Bool)
  deriving DecidableEq, Repr

/-- One call: its argument and what it meets. A read that fails otherwise than by a
missing file has its error here. -/
structure Call where
  publicKey : List Char
  keyRead : Option String
  keyWrite : Writing
  dropDir : Bool
  dropRead : Bool
  dropWrite : Writing
  configRead : Option String
  configWrite : Writing
  reloading : Reloading
  deriving DecidableEq, Repr

def userCAPath : List Char := "/etc/ssh/keywarden_user_ca.pub".toList

def content : List Char :=
  "TrustedUserCAKeys ".toList ++ userCAPath ++ "\nMatch Group ".toList ++ AgentHost.keywardenGroup ++
    "\n    AuthorizedKeysFile none\n    PasswordAuthentication no\n    ChallengeResponseAuthentication no\n".toList

/-- `os.WriteFile`; `put` replaces the file. -/
def writeFile (w : Writing) (context : String) (text : List Char) (put : List Char → Host) (h : Host) :
    Except String Bool × Host :=
  match w with
  | .done => (.ok true, { put text with unloaded := true })
  | .failed e none => (.error (context ++ e), h)
  | .failed e (some left) => (.error (context ++ e), { put left with unloaded := true })

def writeCAKeyIfChanged (c : Call) (key : List Char) (h : Host) : Except String Bool × Host :=
  match c.keyRead with
  | some e => (.error ("read user CA key: " ++ e), h)
  | none =>
    if h.caKey.map (strip goSpace) = some key then (.ok false, h)
    else writeFile c.keyWrite "write user CA key: " (key ++ ['\n'])
      (fun text => { h with caKey := some text }) h

/-- The line that tells whether the configuration has been extended. -/
def marker : List Char := "TrustedUserCAKeys ".toList ++ userCAPath

def extended (data : List Char) : List Char :=
  (if ['\n'] <:+ data then data else data ++ ['\n']) ++ "\n# Keywarden managed users\n".toList ++ content

def ensureSSHDConfig (c : Call) (h : Host) : Except String Bool × Host :=
  if c.dropDir then
    if c.dropRead ∧ h.dropIn = some content then (.ok false, h)
    else writeFile c.dropWrite "write sshd drop-in: " content
      (fun text => { h with dropIn := some text }) h
  else match c.configRead, h.config with
    | some e, _ => (.error ("read sshd config: " ++ e), h)
    | none, none => (.error "read sshd config: open /etc/ssh/sshd_config: no such file or directory", h)
    | none, some data =>
      if marker <:+: data then (.ok false, h)
      else writeFile c.configWrite "write sshd config: " (extended data)
        (fun text => { h with config := some text }) h

def reloadSSHD (r : Reloading) (h : Host) : Except String Unit × Host :=
  if r.systemctl.any (fun o => o.1 || o.2) || r.service.any (fun o => o.1 || o.2) then
    (.ok (), { h with unloaded := false })
  else (.error "unable to reload sshd", h)

def ensureCA (c : Call) (h : Host) : Except String Unit × Host :=
  let key := strip goSpace c.publicKey
  if key = [] then (.error "user CA public key required", h)
  else match writeCAKeyIfChanged c key h with
    | (.error e, h) => (.error e, h)
    | (.ok changed, h) =>
      match ensureSSHDConfig c h with
      | (.error e, h) => (.error e, h)
      | (.ok configChanged, h) =>
        if changed || configChanged then reloadSSHD c.reloading h else (.ok (), h)

/-- The host and what the last call returned. -/
structure Agent where
  host : Host
  returned : Option (Except String Unit)

def call (a : Agent) (c : Call) : Agent :=
  let (returned, host) := ensureCA c a.host
  ⟨host, some returned⟩

/-- When the last call returned nil, sshd has been reloaded since the last change. -/
def Loaded (a : Agent) : Prop := a.returned = some (.ok ()) → a.host.unloaded = false

/-- The call finds the key file and the configuration as it wants them. -/
structure AsWanted (c : Call) (h : Host) : Prop where
  key : strip goSpace c.publicKey ≠ []
  keyRead : c.keyRead = none
  caKey : h.caKey.map (strip goSpace) = some (strip goSpace c.publicKey)
  dropIn : c.dropDir = true → c.dropRead = true ∧ h.dropIn = some content
  config : c.dropDir = false → c.configRead = none ∧ ∃ data, h.config = some data ∧ marker <:+: data

/-- The call does not come to files that are as it wants them and that sshd has not read. -/
def Settled (a : Agent) (c : Call) : Prop := a.host.unloaded = true → ¬ AsWanted c a.host

/-! ## The parts of a call -/

variable {c : Call} {h h' : Host} {key : List Char} {changed : Bool}

theorem writeFile_ok {w : Writing} {context : String} {text : List Char} {put : List Char → Host}
    (hw : writeFile w context text put h = (.ok changed, h')) : changed = true ∧ h'.unloaded = true := by
  unfold writeFile at hw
  split at hw
  · cases hw
    exact ⟨rfl, rfl⟩
  · cases hw
  · cases hw

theorem writeCAKeyIfChanged_ok (hw : writeCAKeyIfChanged c key h = (.ok changed, h')) :
    (changed = false ∧ h' = h ∧ c.keyRead = none ∧ h.caKey.map (strip goSpace) = some key) ∨
      (changed = true ∧ h'.unloaded = true) := by
  unfold writeCAKeyIfChanged at hw
  split at hw
  · cases hw
  · next hread =>
    split at hw
    · next hkey =>
      cases hw
      exact .inl ⟨rfl, rfl, hread, hkey⟩
    · exact .inr (writeFile_ok hw)

theorem ensureSSHDConfig_ok (hw : ensureSSHDConfig c h = (.ok changed, h')) :
    (changed = false ∧ h' = h ∧
      (c.dropDir = true → c.dropRead = true ∧ h.dropIn = some content) ∧
      (c.dropDir = false → c.configRead = none ∧ ∃ data, h.config = some data ∧ marker <:+: data)) ∨
      (changed = true ∧ h'.unloaded = true) := by
  unfold ensureSSHDConfig at hw
  split at hw
  · next hdir =>
    split at hw
    · next hdrop =>
      cases hw
      exact .inl ⟨rfl, rfl, fun _ => hdrop, fun hno => by rw [hdir] at hno; cases hno⟩
    · exact .inr (writeFile_ok hw)
  · next hdir =>
    split at hw
    · cases hw
    · cases hw
    · next data hread hdata =>
      split at hw
      · next hmarker =>
        cases hw
        exact .inl ⟨rfl, rfl, fun hyes => absurd hyes hdir, fun _ => ⟨hread, data, hdata, hmarker⟩⟩
      · exact .inr (writeFile_ok hw)

theorem reloadSSHD_ok {r : Reloading} (hr : reloadSSHD r h = (.ok (), h')) : h'.unloaded = false := by
  unfold reloadSSHD at hr
  split at hr
  · cases hr
    rfl
  · cases hr

/-! ## One call -/

theorem ensureCA_asWanted (hw : AsWanted c h) : ensureCA c h = (.ok (), h) := by
  have hkey : writeCAKeyIfChanged c (strip goSpace c.publicKey) h = (.ok false, h) := by
    rw [writeCAKeyIfChanged, hw.keyRead]
    exact if_pos hw.caKey
  have hconfig : ensureSSHDConfig c h = (.ok false, h) := by
    unfold ensureSSHDConfig
    split
    · next hdir => exact if_pos (hw.dropIn hdir)
    · next hdir =>
      obtain ⟨hread, data, hdata, hmarker⟩ := hw.config (by simpa using hdir)
      rw [hread, hdata]
      exact if_pos hmarker
  unfold ensureCA
  simp only [if_neg hw.key, hkey, hconfig, Bool.or_self, Bool.false_eq_true, if_false]

/-- A call that returns nil has found everything as wanted, or has reloaded sshd. -/
theorem ensureCA_ok (hok : ensureCA c h = (.ok (), h')) :
    (AsWanted c h ∧ h' = h) ∨ h'.unloaded = false := by
  unfold ensureCA at hok
  simp only at hok
  split at hok
  · cases hok
  next hkey =>
  split at hok
  · cases hok
  next changed h₁ hwrite =>
  split at hok
  · cases hok
  next configChanged h₂ hconfig =>
  split at hok
  · exact .inr (reloadSSHD_ok hok)
  next hsame =>
  cases hok
  rw [Bool.not_eq_true, Bool.or_eq_false_iff] at hsame
  obtain ⟨_, rfl, hread, hca⟩ | ⟨hyes, _⟩ := writeCAKeyIfChanged_ok hwrite
  · obtain ⟨_, rfl, hdrop, hconf⟩ | ⟨hyes, _⟩ := ensureSSHDConfig_ok hconfig
    · exact .inl ⟨⟨hkey, hread, hca, hdrop, hconf⟩, rfl⟩
    · rw [hsame.2] at hyes
      cases hyes
  · rw [hsame.1] at hyes
    cases hyes

theorem loaded_call_iff (a : Agent) (c : Call) : Loaded (call a c) ↔ Settled a c := by
  constructor
  · intro hloaded hunloaded hwanted
    have hcall : call a c = ⟨a.host, some (.ok ())⟩ := by rw [call, ensureCA_asWanted hwanted]
    rw [hcall] at hloaded
    have hfalse := hloaded rfl
    rw [hunloaded] at hfalse
    cases hfalse
  · intro hsettled hreturned
    have hok : ensureCA c a.host = (.ok (), (call a c).host) := by
      have hreturned : (ensureCA c a.host).1 = .ok () := Option.some.inj hreturned
      rw [← hreturned]
      rfl
    obtain ⟨hwanted, hsame⟩ | hdone := ensureCA_ok hok
    · by_contra hunloaded
      rw [hsame, Bool.not_eq_false] at hunloaded
      exact hsettled hunloaded hwanted
    · exact hdone

/-- For any keys and whatever fails in whichever call: after every call that returns nil
sshd has been reloaded since the last change, if and only if no call comes to files that
are as it wants them and that sshd has not read. -/
theorem loaded_iff (a : Agent) (calls : List Call) (hstart : Loaded a) :
    Always call Loaded a calls ↔ Along call Settled a calls :=
  always_iff_along (E := fun _ _ => True) (I := fun _ => True) (fun _ _ _ _ => trivial)
    (fun a c _ _ _ => loaded_call_iff a c) (along_of_mem a fun _ _ => trivial) trivial hstart

/-- A call in which only the reload can fail. -/
def rotation (publicKey : String) (reloads : Bool) : Call where
  publicKey := publicKey.toList
  keyRead := none
  keyWrite := .done
  dropDir := true
  dropRead := true
  dropWrite := .done
  configRead := none
  configWrite := .done
  reloading := ⟨some (reloads, reloads), none⟩

def bare : Agent := ⟨⟨none, none, some "PermitRootLogin no\n".toList, false⟩, none⟩

/-- A rotation after the reload that failed loads both keys' changes. -/
theorem loaded_after_rotation : Always call Loaded bare
    [rotation "ssh-ed25519 AAAA" false, rotation "ssh-ed25519 BBBB" true] := by
  refine (loaded_iff bare _ fun h => by cases h).mpr ⟨fun h => (by cases h), ?_, trivial⟩
  intro _ hwanted
  exact absurd hwanted.caKey (by decide +kernel)

/-- The reload fails once; the next call finds nothing to do and returns nil. -/
theorem rotation_lost : ¬ Always call Loaded bare
    [rotation "ssh-ed25519 AAAA" false, rotation "ssh-ed25519 AAAA" true] := by
  rintro ⟨_, _, h⟩
  have hsettled : Settled (call bare (rotation "ssh-ed25519 AAAA" false))
      (rotation "ssh-ed25519 AAAA" true) := (loaded_call_iff _ _).mp h
  have hunloaded : (call bare (rotation "ssh-ed25519 AAAA" false)).host.unloaded = true := by
    decide +kernel
  refine hsettled hunloaded ⟨by decide +kernel, rfl, by decide +kernel, fun _ => ⟨rfl, ?_⟩, ?_⟩
  · decide +kernel
  · exact fun hdir => by cases hdir

end Keywarden.UserCa
