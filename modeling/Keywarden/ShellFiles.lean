import Keywarden.Transitions

/-!
# The key files of a shell session

`ShellConsumer._start_ssh` and `disconnect` beside the `ssh` they start. The private key, the
certificate and the public key are in a temporary directory. The consumer removes the three as soon
as the process is there; the process opens two of them when it authenticates, which it does once it
has connected. A step of either can come at any time.
-/
namespace Keywarden.ShellFiles

open Transitions

inductive File where
  | key | cert | pub
  deriving DecidableEq, Repr

/-- `(key_path, cert_path, f"{key_path}.pub")`. -/
def sessionFiles : List File := [.key, .cert, .pub]

/-- Where the consumer is. -/
inductive Consumer where
  | generating
  | spawning
  /-- In the loop that removes the files, with those that are left. -/
  | removing (rest : List File)
  /-- Until the socket is closed. -/
  | serving
  /-- `ssh` has been sent a signal, and has two seconds. -/
  | terminating
  | cleaning
  | ended
  deriving DecidableEq, Repr

/-- Where `ssh` is. -/
inductive Ssh where
  | absent | spawned | running | connected | exited
  deriving DecidableEq, Repr

structure Session where
  consumer : Consumer := .generating
  ssh : Ssh := .absent
  /-- The files that are in the directory. -/
  files : List File := []
  /-- The files whose removal has failed. -/
  stuck : List File := []
  reader : Bool := false
  /-- The files that `ssh` has opened, and whether it found them, the last one first. -/
  opened : List (File × Bool) := []
  deriving DecidableEq, Repr

def start : Session := {}

inductive ConsumerStep where
  | generate
  /-- `_generate_session_keypair` raises; the socket is closed. -/
  | notGenerated (made : List File)
  | spawn
  | notSpawned
  /-- `os.remove` of the next path, which raises anything or does not. -/
  | remove (removed : Bool)
  | startReader
  /-- `disconnect`; it may have been noticed that `ssh` has exited. -/
  | disconnect (noticed : Bool)
  | waited
  | kill
  | cleanup
  deriving DecidableEq, Repr

inductive SshStep where
  | exec
  | connect
  | opens (file : File)
  | exit
  deriving DecidableEq, Repr

inductive Step where
  | consumer (e : ConsumerStep)
  | ssh (e : SshStep)
  deriving DecidableEq, Repr

/-- A step that cannot be taken changes nothing. -/
def consumerStep (s : Session) (e : ConsumerStep) : Session :=
  match s.consumer, e with
  | .generating, .generate => { s with consumer := .spawning, files := sessionFiles }
  | .generating, .notGenerated made => { s with consumer := .serving, files := made }
  | .spawning, .spawn => { s with consumer := .removing sessionFiles, ssh := .spawned }
  | .spawning, .notSpawned => { s with consumer := .serving }
  | .removing (file :: rest), .remove true =>
    { s with consumer := .removing rest, files := s.files.filter (· ≠ file) }
  | .removing (file :: rest), .remove false =>
    { s with consumer := .removing rest, stuck := file :: s.stuck }
  | .removing [], .startReader => { s with consumer := .serving, reader := true }
  | .serving, .disconnect noticed =>
    { s with
      consumer := if s.ssh = .absent ∨ s.ssh = .exited ∧ noticed = true then .cleaning else .terminating
      reader := false }
  | .terminating, .waited => if s.ssh = .exited then { s with consumer := .cleaning } else s
  | .terminating, .kill => { s with consumer := .cleaning }
  | .cleaning, .cleanup => { s with consumer := .ended, files := [] }
  | _, _ => s

/-- `ssh` opens the private key and the certificate, in whatever order and as often as it likes. -/
def sshStep (s : Session) (e : SshStep) : Session :=
  match s.ssh, e with
  | .spawned, .exec => { s with ssh := .running }
  | .running, .connect => { s with ssh := .connected }
  | .connected, .opens file =>
    if file = .pub then s else { s with opened := (file, decide (file ∈ s.files)) :: s.opened }
  | .absent, .exit => s
  | _, .exit => { s with ssh := .exited }
  | _, _ => s

def step (s : Session) : Step → Session
  | .consumer e => consumerStep s e
  | .ssh e => sshStep s e

/-- `ssh` has found what it has opened, and a session that has ended has left no file. -/
structure Kept (s : Session) : Prop where
  found : ∀ o ∈ s.opened, o.2 = true
  clean : s.consumer = .ended → s.files = []

instance (s : Session) : Decidable (Kept s) :=
  @decidable_of_iff _ ((∀ o ∈ s.opened, o.2 = true) ∧ (s.consumer = .ended → s.files = []))
    ⟨fun h => ⟨h.1, h.2⟩, fun h => ⟨h.1, h.2⟩⟩ inferInstance

/-- The consumer has not removed the file yet: the loop has still to come to it, or could not remove
it, and the directory has not been cleaned up. -/
def Unremoved (s : Session) (file : File) : Prop :=
  match s.consumer with
  | .removing rest => file ∈ rest ∨ file ∈ s.stuck
  | .ended => False
  | _ => file ∈ s.stuck

/-- If the step is that `ssh` opens the private key or the certificate, the consumer has not removed
the file yet. -/
def InTime (s : Session) : Step → Prop
  | .ssh (.opens file) => s.ssh = .connected → file ≠ .pub → Unremoved s file
  | _ => True

/-! ## The files and the steps of the consumer -/

/-- The files there are, by where the consumer is. -/
def Consistent (s : Session) : Prop :=
  match s.consumer with
  | .generating => s.ssh = .absent ∧ s.stuck = []
  | .spawning => s.ssh = .absent ∧ s.stuck = [] ∧ s.files = sessionFiles
  | .removing rest => rest.Nodup ∧ (∀ file ∈ rest, file ∉ s.stuck) ∧
      ∀ file, file ∈ s.files ↔ file ∈ rest ∨ file ∈ s.stuck
  | .ended => s.files = []
  | _ => s.ssh = .absent ∨ ∀ file, file ∈ s.files ↔ file ∈ s.stuck

theorem consistent_start : Consistent start := ⟨rfl, rfl⟩

/-- A file that is removed is not there any more. -/
theorem consistent_removed {s : Session} (h : Consistent s) {file : File} {rest : List File}
    (hc : s.consumer = .removing (file :: rest)) :
    Consistent { s with consumer := .removing rest, files := s.files.filter (· ≠ file) } := by
  rw [Consistent, hc] at h
  obtain ⟨hnodup, hstuck, hfiles⟩ := h
  obtain ⟨hfile, hnodup⟩ := List.nodup_cons.mp hnodup
  obtain ⟨hkept, hstuck⟩ := List.forall_mem_cons.mp hstuck
  refine ⟨hnodup, hstuck, fun f => ?_⟩
  simp only [List.mem_filter, hfiles, List.mem_cons, decide_eq_true_eq]
  constructor
  · rintro ⟨(rfl | hf) | hf, hne⟩
    · exact absurd rfl hne
    · exact .inl hf
    · exact .inr hf
  · rintro (hf | hf)
    · exact ⟨.inl (.inr hf), ne_of_mem_of_not_mem hf hfile⟩
    · exact ⟨.inr hf, ne_of_mem_of_not_mem hf hkept⟩

/-- One that could not be removed still is. -/
theorem consistent_stuck {s : Session} (h : Consistent s) {file : File} {rest : List File}
    (hc : s.consumer = .removing (file :: rest)) :
    Consistent { s with consumer := .removing rest, stuck := file :: s.stuck } := by
  rw [Consistent, hc] at h
  obtain ⟨hnodup, hstuck, hfiles⟩ := h
  obtain ⟨hfile, hnodup⟩ := List.nodup_cons.mp hnodup
  obtain ⟨-, hstuck⟩ := List.forall_mem_cons.mp hstuck
  refine ⟨hnodup, fun f hf => ?_, fun f => ?_⟩
  · exact List.not_mem_cons_of_ne_of_not_mem (ne_of_mem_of_not_mem hf hfile) (hstuck f hf)
  · rw [hfiles, List.mem_cons, List.mem_cons, or_assoc, or_left_comm]

theorem consistent_consumerStep {s : Session} (h : Consistent s) (e : ConsumerStep) :
    Consistent (consumerStep s e) := by
  unfold consumerStep
  split
  · next hc =>
    rw [Consistent, hc] at h
    exact ⟨h.1, h.2, rfl⟩
  · next hc =>
    rw [Consistent, hc] at h
    exact .inl h.1
  · next hc =>
    rw [Consistent, hc] at h
    obtain ⟨-, hstuck, hfiles⟩ := h
    exact ⟨by decide, by simp [hstuck], by simp [hstuck, hfiles]⟩
  · next hc =>
    rw [Consistent, hc] at h
    exact .inl h.1
  · next hc => exact consistent_removed h hc
  · next hc => exact consistent_stuck h hc
  · next hc =>
    rw [Consistent, hc] at h
    exact .inr fun f => by simpa using h.2.2 f
  · next hc =>
    rw [Consistent, hc] at h
    split <;> exact h
  · next hc =>
    split
    · rw [Consistent, hc] at h
      exact h
    · exact h
  · next hc =>
    rw [Consistent, hc] at h
    exact h
  · rfl
  · exact h

/-- `ssh` changes no file, and does not appear by itself. -/
theorem sshStep_frame (s : Session) (e : SshStep) :
    (sshStep s e).consumer = s.consumer ∧ (sshStep s e).files = s.files ∧
      (sshStep s e).stuck = s.stuck ∧ ((sshStep s e).ssh = .absent ↔ s.ssh = .absent) := by
  unfold sshStep
  split
  · next hs => simp [hs]
  · next hs => simp [hs]
  · split
    · simp
    · simp
  · simp
  · next hs => exact ⟨rfl, rfl, rfl, iff_of_false (fun h => by cases h) hs⟩
  · simp

theorem consistent_sshStep {s : Session} (h : Consistent s) (e : SshStep) :
    Consistent (sshStep s e) := by
  obtain ⟨hconsumer, hfiles, hstuck, hssh⟩ := sshStep_frame s e
  unfold Consistent at h ⊢
  rw [hconsumer, hfiles, hstuck, hssh]
  exact h

theorem consistent_step {s : Session} (h : Consistent s) (e : Step) : Consistent (step s e) := by
  cases e with
  | consumer e => exact consistent_consumerStep h e
  | ssh e => exact consistent_sshStep h e

/-- Once `ssh` is there, the files are those that have not been removed. -/
theorem mem_files_iff {s : Session} (h : Consistent s) (hssh : s.ssh ≠ .absent) (file : File) :
    file ∈ s.files ↔ Unremoved s file := by
  unfold Consistent at h
  unfold Unremoved
  cases hc : s.consumer with
  | generating =>
    rw [hc] at h
    exact absurd h.1 hssh
  | spawning =>
    rw [hc] at h
    exact absurd h.1 hssh
  | removing rest =>
    rw [hc] at h
    exact h.2.2 file
  | ended =>
    rw [hc] at h
    have hfiles : s.files = [] := h
    simp [hfiles]
  | _ =>
    rw [hc] at h
    exact (h.resolve_left hssh) file

theorem clean_of_consistent {s : Session} (h : Consistent s) (hended : s.consumer = .ended) :
    s.files = [] := by
  unfold Consistent at h
  rw [hended] at h
  exact h

/-- Whatever has happened, in whatever order: a session that has ended has left no file. -/
theorem clean_run (events : List Step) (h : (run step start events).consumer = .ended) :
    (run step start events).files = [] := by
  have hrun : Consistent (run step start events) :=
    run_preserves (I := Consistent) (fun _ e hs => consistent_step hs e) consistent_start events
  exact clean_of_consistent hrun h

/-! ## The steps of `ssh` -/

theorem consumerStep_opened (s : Session) (e : ConsumerStep) :
    (consumerStep s e).opened = s.opened := by
  unfold consumerStep
  split
  all_goals first | rfl | (split <;> rfl)

theorem opened_opens {s : Session} {file : File} (hssh : s.ssh = .connected) (hpub : file ≠ .pub) :
    (sshStep s (.opens file)).opened = (file, decide (file ∈ s.files)) :: s.opened := by
  simp only [sshStep, hssh, if_neg hpub]

theorem opened_other {s : Session} {e : SshStep}
    (h : ∀ file, e = .opens file → s.ssh = .connected → file = .pub) :
    (sshStep s e).opened = s.opened := by
  unfold sshStep
  split
  · rfl
  · rfl
  · next file hssh => rw [if_pos (h file rfl hssh)]
  · rfl
  · rfl
  · rfl

/-- What a step of `ssh` finds is what has not been removed. -/
theorem sshStep_found_iff {s : Session} (h : Consistent s) (hfound : ∀ o ∈ s.opened, o.2 = true)
    (e : SshStep) : (∀ o ∈ (sshStep s e).opened, o.2 = true) ↔ InTime s (.ssh e) := by
  by_cases hopens : ∃ file, e = .opens file ∧ s.ssh = .connected ∧ file ≠ .pub
  · obtain ⟨file, rfl, hssh, hpub⟩ := hopens
    have hpresent : s.ssh ≠ .absent := by rw [hssh]; decide
    have hintime : InTime s (.ssh (.opens file)) ↔ Unremoved s file :=
      ⟨fun h => h hssh hpub, fun h _ _ => h⟩
    rw [opened_opens hssh hpub, List.forall_mem_cons, hintime, ← mem_files_iff h hpresent]
    exact ⟨fun hstep => of_decide_eq_true hstep.1, fun hmem => ⟨decide_eq_true hmem, hfound⟩⟩
  · rw [opened_other fun file he hssh => Classical.byContradiction fun hpub => hopens ⟨file, he, hssh, hpub⟩]
    refine iff_of_true hfound ?_
    cases e with
    | opens file => exact fun hssh hpub => absurd ⟨file, rfl, hssh, hpub⟩ hopens
    | _ => trivial

theorem kept_step_iff {s : Session} (h : Consistent s) (hkept : Kept s) (e : Step) :
    Kept (step s e) ↔ InTime s e := by
  have hclean := clean_of_consistent (consistent_step h e)
  cases e with
  | consumer e =>
    refine iff_of_true ⟨?_, hclean⟩ trivial
    change ∀ o ∈ (consumerStep s e).opened, o.2 = true
    rw [consumerStep_opened]
    exact hkept.found
  | ssh e =>
    rw [← sshStep_found_iff h hkept.found]
    exact ⟨fun hstep => hstep.found, fun hfound => ⟨hfound, hclean⟩⟩

/-- For every interleaving: `ssh` finds its files and none is left at the end, exactly when `ssh`
never opens a file that the consumer has removed by then. -/
theorem always_kept_iff (events : List Step) :
    Always step Kept start events ↔ Along step InTime start events :=
  always_iff_along (E := fun _ _ => True) (fun _ e _ h => consistent_step h e)
    (fun _ e _ h hkept => kept_step_iff h hkept e) (along_of_mem start fun _ _ => trivial)
    consistent_start (by decide)

example : Always step Kept start [.consumer .generate, .consumer .spawn, .ssh .exec, .ssh .connect,
    .ssh (.opens .cert), .ssh (.opens .key), .consumer (.remove true), .consumer (.remove false),
    .consumer (.remove true), .consumer .startReader, .consumer (.disconnect false), .ssh .exit,
    .consumer .waited, .consumer .cleanup] := by decide

/-- The private key is removed before `ssh` has connected. -/
theorem opened_too_late : ¬ ∀ events : List Step, Always step Kept start events := by
  intro h
  have hlast := always_last (h [.consumer .generate, .consumer .spawn, .ssh .exec,
    .consumer (.remove true), .ssh .connect, .ssh (.opens .key)])
  exact absurd hlast (by decide)

end Keywarden.ShellFiles
