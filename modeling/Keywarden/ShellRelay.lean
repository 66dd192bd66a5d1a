import Keywarden.Transitions

/-!
# The two streams of a shell session

`ShellConsumer` after it has accepted a socket. What the browser sends is handled message by
message and written to the `ssh` it has started; a task of its own reads what `ssh` prints and
sends it to the browser, until `ssh` has exited or the browser has left. Browser, handler, task
and `ssh` take their steps in any order.
-/
namespace Keywarden.ShellRelay

open Transitions

abbrev Bytes := List UInt8

inductive Message where
  | text (s : List Char)
  | bytes (b : Bytes)
  deriving DecidableEq, Repr

/-- What is written to `stdin`. -/
def Message.data : Message → Bytes
  | .text s => s.flatMap String.utf8EncodeChar
  | .bytes b => b

/-- What the browser is sent. -/
inductive Frame where
  | text (s : String)
  | bytes (b : Bytes)
  | close
  deriving DecidableEq, Repr

/-- What the frames show of the output of `ssh`. -/
def output (frames : List Frame) : Bytes :=
  frames.flatMap fun f =>
    match f with
    | .bytes b => b
    | _ => []

/-- Where the handler of the messages is. -/
inductive Handler where
  | connecting
  | waiting
  | draining
  | auditing
  | terminating
  | ended
  /-- It has raised an exception; no later message is handled. -/
  | raised
  deriving DecidableEq, Repr

inductive Process where
  | absent | running | exited
  deriving DecidableEq, Repr

/-- Where `_stream_output` is. -/
inductive Reader where
  | absent
  | reading
  | sending (chunk : Bytes)
  | closing
  | finished
  | cancelled
  deriving DecidableEq, Repr

/-- A chunk that is being sent is lost. -/
def Reader.cancel : Reader → Reader
  | .absent => .absent
  | .finished => .finished
  | _ => .cancelled

structure Session where
  handler : Handler := .connecting
  /-- All that the browser has sent, what has been handled of it, and what has not. -/
  typed : List Message := []
  handled : List Message := []
  inbox : List Message := []
  left : Bool := false
  process : Process := .absent
  stdinOpen : Bool := false
  stdin : Bytes := []
  /-- All that `ssh` has printed, and what has not been read of it. -/
  printed : Bytes := []
  pipe : Bytes := []
  reader : Reader := .absent
  outbox : List Frame := []
  tempdir : Bool := false
  deriving DecidableEq, Repr

/-- The socket has been accepted. -/
def start : Session := { outbox := [.text "Connecting...\r\n"] }

inductive Event where
  | types (m : Message)
  | leaves
  | mkdtemp
  /-- `_start_ssh` raises. -/
  | fails
  | spawns
  | receives
  | drained
  /-- The pipe to `ssh` is broken. -/
  | drainRaises
  | disconnects
  /-- The disconnect is in the audit log; it may have been noticed that `ssh` has exited. -/
  | audited (noticed : Bool)
  | waited
  /-- `wait_for` has timed out; `ssh` takes no further step. -/
  | kills
  | reads (n : Nat)
  | readsEnd
  | sends
  | closes
  | prints (b : Bytes)
  | closesStdin
  | exits
  deriving DecidableEq, Repr

/-- `receive`. -/
def receive (s : Session) (m : Message) (rest : List Message) : Session :=
  let s := { s with handled := s.handled ++ [m], inbox := rest }
  if s.process = .absent ∨ m.data = [] then s
  else { s with handler := .draining, stdin := if s.stdinOpen then s.stdin ++ m.data else s.stdin }

/-- The rest of `disconnect` once the disconnect has been recorded. -/
def afterAudit (s : Session) (noticed : Bool) : Session :=
  let s : Session := { s with reader := s.reader.cancel }
  if s.process = .absent ∨ (s.process = .exited ∧ noticed = true) then
    { s with handler := .ended, tempdir := false }
  else { s with handler := .terminating }

/-- A step that cannot be taken changes nothing. -/
def step (s : Session) : Event → Session
  | .types m => if s.left then s else { s with typed := s.typed ++ [m], inbox := s.inbox ++ [m] }
  | .leaves => { s with left := true }
  | .mkdtemp => if s.handler = .connecting then { s with tempdir := true } else s
  | .fails =>
    if s.handler = .connecting then
      { s with handler := .waiting, outbox := s.outbox ++ [.text "Connection failed.\r\n", .close] }
    else s
  | .spawns =>
    if s.handler = .connecting ∧ s.tempdir = true then
      { s with handler := .waiting, process := .running, stdinOpen := true, reader := .reading }
    else s
  | .receives =>
    match s.handler, s.inbox with
    | .waiting, m :: rest => receive s m rest
    | _, _ => s
  | .drained => if s.handler = .draining then { s with handler := .waiting } else s
  | .drainRaises =>
    if s.handler = .draining ∧ s.stdinOpen = false then { s with handler := .raised } else s
  | .disconnects =>
    if s.handler = .waiting ∧ s.inbox = [] ∧ s.left = true then { s with handler := .auditing } else s
  | .audited noticed => if s.handler = .auditing then afterAudit s noticed else s
  | .waited =>
    if s.handler = .terminating ∧ s.process = .exited then { s with handler := .ended, tempdir := false }
    else s
  | .kills =>
    if s.handler = .terminating then
      { s with handler := .ended, tempdir := false, process := .exited, stdinOpen := false }
    else s
  | .reads n =>
    if s.reader = .reading ∧ s.pipe ≠ [] then
      let size := max 1 (min n 4096)
      { s with reader := .sending (s.pipe.take size), pipe := s.pipe.drop size }
    else s
  | .readsEnd =>
    if s.reader = .reading ∧ s.pipe = [] ∧ s.process = .exited then { s with reader := .closing } else s
  | .sends =>
    match s.reader with
    | .sending chunk => { s with reader := .reading, outbox := s.outbox ++ [.bytes chunk] }
    | _ => s
  | .closes =>
    if s.reader = .closing then { s with reader := .finished, outbox := s.outbox ++ [.close] } else s
  | .prints b =>
    if s.process = .running then { s with printed := s.printed ++ b, pipe := s.pipe ++ b } else s
  | .closesStdin => if s.process = .running then { s with stdinOpen := false } else s
  | .exits => if s.process = .running then { s with process := .exited, stdinOpen := false } else s

/-! ## The end -/

/-- The task sends nothing more. -/
def Reader.Idle (r : Reader) : Prop := r = .absent ∨ r = .finished ∨ r = .cancelled

theorem cancel_idle (r : Reader) : r.cancel.Idle := by
  cases r <;> simp [Reader.cancel, Reader.Idle]

/-- `disconnect` runs when the browser has left and all it has sent has been handled, and leaves
no task, no `ssh` and no directory behind. -/
structure Ends (s : Session) : Prop where
  gone : s.handler = .auditing ∨ s.handler = .terminating ∨ s.handler = .ended →
    s.left = true ∧ s.inbox = []
  stopped : s.handler = .terminating ∨ s.handler = .ended → s.reader.Idle
  present : s.handler = .terminating → s.process ≠ .absent
  released : s.handler = .ended → s.process ≠ .running ∧ s.tempdir = false

theorem ends_start : Ends start := by
  refine ⟨?_, ?_, ?_, ?_⟩ <;> simp [start]

/-- Where `disconnect` has not been called there is nothing to keep. -/
theorem Ends.earlier {s : Session} (ha : s.handler ≠ .auditing) (ht : s.handler ≠ .terminating)
    (he : s.handler ≠ .ended) : Ends s := by
  refine ⟨?_, ?_, ?_, ?_⟩ <;> simp [ha, ht, he]

/-- Steps of the others. -/
theorem Ends.frame {s s' : Session} (h : Ends s) (hhandler : s'.handler = s.handler)
    (hleft : s.left = true → s'.left = true ∧ s'.inbox = s.inbox)
    (hreader : s.reader.Idle → s'.reader.Idle)
    (hprocess : s'.process = s.process ∨ s'.process = .exited) (htempdir : s'.tempdir = s.tempdir) :
    Ends s' := by
  refine ⟨?_, ?_, ?_, ?_⟩ <;> rw [hhandler]
  · intro hg
    obtain ⟨hl, hnil⟩ := h.gone hg
    obtain ⟨hl', hsame⟩ := hleft hl
    exact ⟨hl', hsame.trans hnil⟩
  · exact fun hs => hreader (h.stopped hs)
  · intro ht
    obtain hp | hp := hprocess
    · rw [hp]
      exact h.present ht
    · simp [hp]
  · intro he
    obtain ⟨hrunning, hnone⟩ := h.released he
    refine ⟨?_, htempdir.trans hnone⟩
    obtain hp | hp := hprocess
    · rw [hp]
      exact hrunning
    · simp [hp]

theorem ends_afterAudit {s : Session} (h : Ends s) (hs : s.handler = .auditing) (noticed : Bool) :
    Ends (afterAudit s noticed) := by
  have hgone := h.gone (.inl hs)
  have hidle := cancel_idle s.reader
  simp only [afterAudit]
  split
  next hp =>
    refine ⟨fun _ => hgone, fun _ => hidle, by simp, fun _ => ⟨?_, rfl⟩⟩
    obtain hp | ⟨hp, -⟩ := hp <;> simp [hp]
  next hp =>
    refine ⟨fun _ => hgone, fun _ => hidle, fun _ habsent => hp (.inl habsent), by simp⟩

theorem ends_step {s : Session} (h : Ends s) (e : Event) : Ends (step s e) := by
  cases e with
  | types m =>
    simp only [step]
    split
    next => exact h
    next hl => exact h.frame rfl (fun hl' => absurd hl' hl) id (.inl rfl) rfl
  | leaves => exact h.frame rfl (fun _ => ⟨rfl, rfl⟩) id (.inl rfl) rfl
  | mkdtemp =>
    simp only [step]
    split
    next hc => apply Ends.earlier <;> simp [hc]
    next => exact h
  | fails =>
    simp only [step]
    split
    next => apply Ends.earlier <;> simp
    next => exact h
  | spawns =>
    simp only [step]
    split
    next => apply Ends.earlier <;> simp
    next => exact h
  | receives =>
    simp only [step]
    split
    next m rest hw _ =>
      simp only [receive]
      split <;> apply Ends.earlier <;> simp [hw]
    next => exact h
  | drained =>
    simp only [step]
    split
    next => apply Ends.earlier <;> simp
    next => exact h
  | drainRaises =>
    simp only [step]
    split
    next => apply Ends.earlier <;> simp
    next => exact h
  | disconnects =>
    simp only [step]
    split
    next hd => exact ⟨fun _ => ⟨hd.2.2, hd.2.1⟩, by simp, by simp, by simp⟩
    next => exact h
  | audited noticed =>
    simp only [step]
    split
    next ha => exact ends_afterAudit h ha noticed
    next => exact h
  | waited =>
    simp only [step]
    split
    next hd =>
      refine ⟨fun _ => h.gone (.inr (.inl hd.1)), fun _ => h.stopped (.inl hd.1), by simp, ?_⟩
      simp [hd.2]
    next => exact h
  | kills =>
    simp only [step]
    split
    next hd =>
      refine ⟨fun _ => h.gone (.inr (.inl hd)), fun _ => h.stopped (.inl hd), by simp, by simp⟩
    next => exact h
  | reads n =>
    simp only [step]
    split
    next hr => exact h.frame rfl (fun hl => ⟨hl, rfl⟩) (by simp [hr.1, Reader.Idle]) (.inl rfl) rfl
    next => exact h
  | readsEnd =>
    simp only [step]
    split
    next hr => exact h.frame rfl (fun hl => ⟨hl, rfl⟩) (by simp [hr.1, Reader.Idle]) (.inl rfl) rfl
    next => exact h
  | sends =>
    simp only [step]
    split
    next hr => exact h.frame rfl (fun hl => ⟨hl, rfl⟩) (by simp [hr, Reader.Idle]) (.inl rfl) rfl
    next => exact h
  | closes =>
    simp only [step]
    split
    next hr => exact h.frame rfl (fun hl => ⟨hl, rfl⟩) (by simp [hr, Reader.Idle]) (.inl rfl) rfl
    next => exact h
  | prints b =>
    simp only [step]
    split
    · exact h.frame rfl (fun hl => ⟨hl, rfl⟩) id (.inl rfl) rfl
    · exact h
  | closesStdin =>
    simp only [step]
    split
    · exact h.frame rfl (fun hl => ⟨hl, rfl⟩) id (.inl rfl) rfl
    · exact h
  | exits =>
    simp only [step]
    split
    · exact h.frame rfl (fun hl => ⟨hl, rfl⟩) id (.inr rfl) rfl
    · exact h

/-! ## The output -/

/-- What has been read and not been sent. -/
def Reader.chunk : Reader → Bytes
  | .sending chunk => chunk
  | _ => []

/-- What the browser is shown is the front of what `ssh` has printed. As long as the task goes on
nothing is lost, and after the socket has been closed nothing is sent. -/
structure Shows (s : Session) : Prop where
  front : output s.outbox <+: s.printed
  kept : s.reader ≠ .cancelled → output s.outbox ++ s.reader.chunk ++ s.pipe = s.printed
  all : s.reader = .closing ∨ s.reader = .finished → s.pipe = [] ∧ s.process = .exited
  early : s.handler = .connecting → s.reader = .absent ∧ .close ∉ s.outbox
  closed : .close ∈ s.outbox → s.reader.Idle
  last : ∀ xs ys, s.outbox = xs ++ .close :: ys → ys = []

@[simp] theorem output_append (xs ys : List Frame) : output (xs ++ ys) = output xs ++ output ys :=
  List.flatMap_append

@[simp] theorem output_nil : output [] = [] := rfl
@[simp] theorem output_text (t : String) (fs : List Frame) : output (.text t :: fs) = output fs := rfl
@[simp] theorem output_close (fs : List Frame) : output (.close :: fs) = output fs := rfl
@[simp] theorem output_bytes (b : Bytes) (fs : List Frame) : output (.bytes b :: fs) = b ++ output fs := rfl

theorem last_append {xs new : List Frame} (h : .close ∉ xs)
    (hnew : ∀ ys zs, new = ys ++ .close :: zs → zs = []) :
    ∀ ys zs, xs ++ new = ys ++ .close :: zs → zs = [] := by
  induction xs with
  | nil => exact hnew
  | cons x xs ih =>
    intro ys zs heq
    cases ys with
    | nil =>
      obtain ⟨rfl, -⟩ := List.cons.inj heq
      exact absurd List.mem_cons_self h
    | cons y ys => exact ih (fun hm => h (List.mem_cons_of_mem x hm)) ys zs (List.cons.inj heq).2

theorem shows_start : Shows start := by
  refine ⟨List.nil_prefix, fun _ => rfl, by simp [start], fun _ => ⟨rfl, by decide⟩,
    by simp [start], ?_⟩
  intro xs ys h
  cases xs with
  | nil => cases h
  | cons x xs => cases xs <;> simp [start] at h

/-- Steps that touch neither the output nor the task. -/
theorem Shows.frame {s s' : Session} (h : Shows s) (hprinted : s'.printed = s.printed)
    (hpipe : s'.pipe = s.pipe) (hreader : s'.reader = s.reader) (houtbox : s'.outbox = s.outbox)
    (hprocess : s'.process = s.process ∨ s'.process = .exited)
    (hhandler : s'.handler = .connecting → s.handler = .connecting) : Shows s' := by
  refine ⟨?_, ?_, ?_, ?_, ?_, ?_⟩
  · rw [houtbox, hprinted]
    exact h.front
  · rw [hreader, houtbox, hpipe, hprinted]
    exact h.kept
  · rw [hreader, hpipe]
    intro hr
    obtain ⟨hnil, hexited⟩ := h.all hr
    refine ⟨hnil, ?_⟩
    obtain hp | hp := hprocess
    · exact hp.trans hexited
    · exact hp
  · rw [hreader, houtbox]
    exact fun hc => h.early (hhandler hc)
  · rw [hreader, houtbox]
    exact h.closed
  · rw [houtbox]
    exact h.last

/-- Steps of the handler: the task goes on as before or has been cancelled. -/
theorem Shows.cancel {s : Session} (h : Shows s) (t : Handler) (ht : t ≠ .connecting) (d : Bool) :
    Shows { s with reader := s.reader.cancel, handler := t, tempdir := d } := by
  refine ⟨h.front, ?_, ?_, ?_, ?_, h.last⟩
  · intro hr
    have hsame : s.reader.cancel.chunk = s.reader.chunk ∧ s.reader ≠ .cancelled := by
      cases hs : s.reader <;> simp_all [Reader.cancel, Reader.chunk]
    simpa only [hsame.1] using h.kept hsame.2
  · intro hr
    refine h.all ?_
    cases hs : s.reader <;> simp_all [Reader.cancel]
  · exact fun hh => absurd hh ht
  · exact fun _ => cancel_idle s.reader

theorem shows_step {s : Session} (h : Shows s) (e : Event) : Shows (step s e) := by
  cases e with
  | types m =>
    simp only [step]
    split
    · exact h
    · exact h.frame rfl rfl rfl rfl (.inl rfl) id
  | leaves => exact h.frame rfl rfl rfl rfl (.inl rfl) id
  | mkdtemp =>
    simp only [step]
    split
    · exact h.frame rfl rfl rfl rfl (.inl rfl) id
    · exact h
  | fails =>
    simp only [step]
    split
    next hc =>
      obtain ⟨hreader, hopen⟩ := h.early hc
      refine ⟨by simpa using h.front, by simpa using h.kept, h.all, by simp, ?_, ?_⟩
      · exact fun _ => .inl hreader
      · refine last_append hopen fun ys zs heq => ?_
        cases ys with
        | nil => simp at heq
        | cons y ys => cases ys <;> simp_all
    next => exact h
  | spawns =>
    simp only [step]
    split
    next hc =>
      obtain ⟨hreader, hopen⟩ := h.early hc.1
      refine ⟨h.front, fun _ => ?_, by simp, by simp, fun hm => absurd hm hopen, h.last⟩
      simpa only [hreader, Reader.chunk] using h.kept (by simp [hreader])
    next => exact h
  | receives =>
    simp only [step]
    split
    next m rest hw _ =>
      simp only [receive]
      split
      · exact h.frame rfl rfl rfl rfl (.inl rfl) (by simp [hw])
      · exact h.frame rfl rfl rfl rfl (.inl rfl) (by simp)
    next => exact h
  | drained =>
    simp only [step]
    split
    · exact h.frame rfl rfl rfl rfl (.inl rfl) (by simp)
    · exact h
  | drainRaises =>
    simp only [step]
    split
    · exact h.frame rfl rfl rfl rfl (.inl rfl) (by simp)
    · exact h
  | disconnects =>
    simp only [step]
    split
    · exact h.frame rfl rfl rfl rfl (.inl rfl) (by simp)
    · exact h
  | audited noticed =>
    simp only [step]
    split
    next =>
      simp only [afterAudit]
      split
      · exact h.cancel .ended (by simp) false
      · exact h.cancel .terminating (by simp) s.tempdir
    next => exact h
  | waited =>
    simp only [step]
    split
    · exact h.frame rfl rfl rfl rfl (.inl rfl) (by simp)
    · exact h
  | kills =>
    simp only [step]
    split
    · exact h.frame rfl rfl rfl rfl (.inr rfl) (by simp)
    · exact h
  | reads n =>
    simp only [step]
    split
    next hr =>
      have hkept := h.kept (by simp [hr.1])
      simp only [hr.1, Reader.chunk, List.append_nil] at hkept
      refine ⟨h.front, fun _ => ?_, by simp, ?_, ?_, h.last⟩
      · simpa only [Reader.chunk, List.append_assoc, List.take_append_drop] using hkept
      · exact fun hc => by simp [(h.early hc).1] at hr
      · exact fun hm => by simpa [hr.1, Reader.Idle] using h.closed hm
    next => exact h
  | readsEnd =>
    simp only [step]
    split
    next hr =>
      have hkept := h.kept (by simp [hr.1])
      simp only [hr.1, Reader.chunk] at hkept
      refine ⟨h.front, fun _ => hkept, fun _ => hr.2, ?_, ?_, h.last⟩
      · exact fun hc => by simp [(h.early hc).1] at hr
      · exact fun hm => by simpa [hr.1, Reader.Idle] using h.closed hm
    next => exact h
  | sends =>
    simp only [step]
    split
    next chunk hr =>
      have hkept := h.kept (by simp [hr])
      simp only [hr, Reader.chunk] at hkept
      have hopen : .close ∉ s.outbox := fun hm => by simpa [hr, Reader.Idle] using h.closed hm
      refine ⟨?_, fun _ => ?_, by simp, ?_, ?_, ?_⟩
      · exact ⟨s.pipe, by simpa using hkept⟩
      · simpa [Reader.chunk] using hkept
      · exact fun hc => by simp [(h.early hc).1] at hr
      · exact fun hm => by simp [hopen] at hm
      · refine last_append hopen fun ys zs heq => ?_
        cases ys <;> simp_all
    next => exact h
  | closes =>
    simp only [step]
    split
    next hr =>
      have hkept := h.kept (by simp [hr])
      simp only [hr, Reader.chunk] at hkept
      have hopen : .close ∉ s.outbox := fun hm => by simpa [hr, Reader.Idle] using h.closed hm
      refine ⟨by simpa using h.front, fun _ => by simpa [Reader.chunk] using hkept, ?_, ?_, ?_, ?_⟩
      · exact fun _ => h.all (.inl hr)
      · exact fun hc => by simp [(h.early hc).1] at hr
      · exact fun _ => .inr (.inl rfl)
      · refine last_append hopen fun ys zs heq => ?_
        cases ys <;> simp_all
    next => exact h
  | prints b =>
    simp only [step]
    split
    next hp =>
      refine ⟨h.front.trans (List.prefix_append s.printed b), fun hr => ?_, ?_, h.early, h.closed, h.last⟩
      · rw [← List.append_assoc, h.kept hr]
      · exact fun hr => by simp [(h.all hr).2] at hp
    next => exact h
  | closesStdin =>
    simp only [step]
    split
    · exact h.frame rfl rfl rfl rfl (.inl rfl) id
    · exact h
  | exits =>
    simp only [step]
    split
    · exact h.frame rfl rfl rfl rfl (.inr rfl) id
    · exact h

/-! ## The input -/

/-- What has been written to `ssh` is the front of what has been handled, and all of it as long
as `ssh` reads. What was sent while `ssh` was being started waits. -/
structure HandsOn (s : Session) : Prop where
  order : s.handled ++ s.inbox = s.typed
  front : s.stdin <+: s.handled.flatMap Message.data
  whole : s.stdinOpen = true → s.stdin = s.handled.flatMap Message.data
  early : s.handler = .connecting → s.handled = [] ∧ s.process = .absent
  unstarted : s.process = .absent → s.stdinOpen = false ∧ s.stdin = []

theorem handsOn_start : HandsOn start :=
  ⟨rfl, List.nil_prefix, fun _ => rfl, fun _ => ⟨rfl, rfl⟩, fun _ => ⟨rfl, rfl⟩⟩

/-- Steps that handle no message and start no `ssh`. -/
theorem HandsOn.frame {s s' : Session} (h : HandsOn s) (htyped : s'.typed = s.typed)
    (hhandled : s'.handled = s.handled) (hinbox : s'.inbox = s.inbox) (hstdin : s'.stdin = s.stdin)
    (hopen : s'.stdinOpen = true → s.stdinOpen = true)
    (hprocess : s'.process = s.process ∨ s.process ≠ .absent ∧ s'.process = .exited)
    (hhandler : s'.handler = .connecting → s.handler = .connecting) : HandsOn s' := by
  refine ⟨?_, ?_, ?_, ?_, ?_⟩
  · rw [hhandled, hinbox, htyped]
    exact h.order
  · rw [hstdin, hhandled]
    exact h.front
  · rw [hstdin, hhandled]
    exact fun ho => h.whole (hopen ho)
  · intro hc
    obtain ⟨hnil, habsent⟩ := h.early (hhandler hc)
    refine ⟨hhandled.trans hnil, ?_⟩
    obtain hp | ⟨hp, -⟩ := hprocess
    · exact hp.trans habsent
    · exact absurd habsent hp
  · intro hp
    obtain hp' | ⟨-, hp'⟩ := hprocess
    · obtain ⟨hclosed, hnil⟩ := h.unstarted (hp'.symm.trans hp)
      refine ⟨?_, hstdin.trans hnil⟩
      cases ho : s'.stdinOpen with
      | false => rfl
      | true => simp [hopen ho] at hclosed
    · simp [hp'] at hp

theorem handsOn_receive {s : Session} {m : Message} {rest : List Message} (h : HandsOn s)
    (hw : s.handler = .waiting) (hinbox : s.inbox = m :: rest) : HandsOn (receive s m rest) := by
  have horder : s.handled ++ [m] ++ rest = s.typed := by
    rw [List.append_assoc, List.singleton_append, ← hinbox]
    exact h.order
  have hlater : s.stdin <+: (s.handled ++ [m]).flatMap Message.data := by
    rw [List.flatMap_append]
    exact h.front.trans (List.prefix_append _ _)
  simp only [receive]
  split
  next hskip =>
    refine ⟨horder, hlater, fun ho => ?_, by simp [hw], h.unstarted⟩
    obtain habsent | hempty := hskip
    · simp [(h.unstarted habsent).1] at ho
    · simp [hempty, h.whole ho]
  next hwrite =>
    refine ⟨horder, ?_, fun ho => ?_, by simp, fun hp => absurd (.inl hp) hwrite⟩
    · cases ho : s.stdinOpen with
      | false => exact hlater
      | true => simp [h.whole ho]
    · have hopen : s.stdinOpen = true := ho
      simp [hopen, h.whole hopen]

theorem handsOn_step {s : Session} (h : HandsOn s) (hends : Ends s) (e : Event) :
    HandsOn (step s e) := by
  have hsame : ∀ s' : Session, s'.typed = s.typed → s'.handled = s.handled → s'.inbox = s.inbox →
      s'.stdin = s.stdin → s'.stdinOpen = s.stdinOpen → s'.process = s.process →
      (s'.handler = .connecting → s.handler = .connecting) → HandsOn s' :=
    fun s' ht hh hi hin ho hp => h.frame ht hh hi hin (ho ▸ id) (.inl hp)
  cases e with
  | types m =>
    simp only [step]
    split
    next => exact h
    next =>
      refine ⟨?_, h.front, h.whole, h.early, h.unstarted⟩
      rw [← List.append_assoc, h.order]
  | leaves => exact hsame _ rfl rfl rfl rfl rfl rfl id
  | mkdtemp =>
    simp only [step]
    split
    · exact hsame _ rfl rfl rfl rfl rfl rfl id
    · exact h
  | fails =>
    simp only [step]
    split
    · exact hsame _ rfl rfl rfl rfl rfl rfl (by simp)
    · exact h
  | spawns =>
    simp only [step]
    split
    next hc =>
      obtain ⟨hnil, habsent⟩ := h.early hc.1
      refine ⟨h.order, h.front, fun _ => ?_, by simp, by simp⟩
      rw [(h.unstarted habsent).2, hnil]
      rfl
    next => exact h
  | receives =>
    simp only [step]
    split
    next m rest hw hinbox => exact handsOn_receive h hw hinbox
    next => exact h
  | drained =>
    simp only [step]
    split
    · exact hsame _ rfl rfl rfl rfl rfl rfl (by simp)
    · exact h
  | drainRaises =>
    simp only [step]
    split
    · exact hsame _ rfl rfl rfl rfl rfl rfl (by simp)
    · exact h
  | disconnects =>
    simp only [step]
    split
    · exact hsame _ rfl rfl rfl rfl rfl rfl (by simp)
    · exact h
  | audited noticed =>
    simp only [step]
    split
    next =>
      simp only [afterAudit]
      split <;> exact hsame _ rfl rfl rfl rfl rfl rfl (by simp)
    next => exact h
  | waited =>
    simp only [step]
    split
    · exact hsame _ rfl rfl rfl rfl rfl rfl (by simp)
    · exact h
  | kills =>
    simp only [step]
    split
    next ht => exact h.frame rfl rfl rfl rfl (by simp) (.inr ⟨hends.present ht, rfl⟩) (by simp)
    next => exact h
  | reads n =>
    simp only [step]
    split
    · exact hsame _ rfl rfl rfl rfl rfl rfl id
    · exact h
  | readsEnd =>
    simp only [step]
    split
    · exact hsame _ rfl rfl rfl rfl rfl rfl id
    · exact h
  | sends =>
    simp only [step]
    split
    · exact hsame _ rfl rfl rfl rfl rfl rfl id
    · exact h
  | closes =>
    simp only [step]
    split
    · exact hsame _ rfl rfl rfl rfl rfl rfl id
    · exact h
  | prints b =>
    simp only [step]
    split
    · exact hsame _ rfl rfl rfl rfl rfl rfl id
    · exact h
  | closesStdin =>
    simp only [step]
    split
    next => exact h.frame rfl rfl rfl rfl (by simp) (.inl rfl) id
    next => exact h
  | exits =>
    simp only [step]
    split
    next hp => exact h.frame rfl rfl rfl rfl (by simp) (.inr ⟨by simp [hp], rfl⟩) id
    next => exact h

/-! ## Every run -/

/-- What the two streams have carried. -/
structure Relayed (s : Session) : Prop where
  /-- The browser is shown what `ssh` has printed, in its order, and all of it if it was the task
  that closed the socket. -/
  shown : output s.outbox <+: s.printed
  shownAll : s.reader = .finished → s.process = .exited ∧ output s.outbox = s.printed
  closed : ∀ xs ys, s.outbox = xs ++ .close :: ys → ys = []
  /-- `ssh` is handed what the browser has sent, in its order, and all of it that has been handled
  as long as `ssh` reads. -/
  order : s.handled ++ s.inbox = s.typed
  written : s.stdin <+: s.handled.flatMap Message.data
  writtenAll : s.stdinOpen = true → s.stdin = s.handled.flatMap Message.data
  /-- After `disconnect` nothing is left. -/
  released : s.handler = .ended →
    s.handled = s.typed ∧ s.reader.Idle ∧ s.process ≠ .running ∧ s.tempdir = false

theorem relayed_of {s : Session} (hends : Ends s) (hshows : Shows s) (hands : HandsOn s) :
    Relayed s := by
  refine ⟨hshows.front, ?_, hshows.last, hands.order, hands.front, hands.whole, ?_⟩
  · intro hr
    obtain ⟨hnil, hexited⟩ := hshows.all (.inr hr)
    have hkept := hshows.kept (by simp [hr])
    simp only [hr, hnil, Reader.chunk, List.append_nil] at hkept
    exact ⟨hexited, hkept⟩
  · intro he
    have horder := hands.order
    rw [(hends.gone (.inr (.inr he))).2, List.append_nil] at horder
    exact ⟨horder, hends.stopped (.inr he), hends.released he⟩

/-- In every state of every run: the output arrives in order and nothing follows the close, the
input arrives in order, and a disconnect leaves nothing behind. -/
theorem relays (es : List Event) : Always step Relayed start es := by
  have hinv : Always step (fun s => Ends s ∧ Shows s ∧ HandsOn s) start es :=
    always_invariant (P := fun _ _ => True)
      (fun s e h _ => ⟨ends_step h.1 e, shows_step h.2.1 e, handsOn_step h.2.2 h.1 e⟩)
      ⟨ends_start, shows_start, handsOn_start⟩ (along_of_mem start fun _ _ => trivial)
  rw [always_iff] at hinv ⊢
  intro bs hbs
  obtain ⟨hends, hshows, hands⟩ := hinv bs hbs
  exact relayed_of hends hshows hands

/-! ## A handler that has raised -/

/-- `disconnect` can still run to its end. -/
def CanEnd (s : Session) : Prop := ∃ fs, (run step s fs).handler = .ended

theorem CanEnd.before {s : Session} (e : Event) (h : CanEnd (step s e)) : CanEnd s := by
  obtain ⟨fs, hfs⟩ := h
  exact ⟨e :: fs, hfs⟩

theorem canEnd_terminating {s : Session} (h : s.handler = .terminating) : CanEnd s :=
  ⟨[.kills], by simp [step, h]⟩

theorem canEnd_auditing {s : Session} (h : s.handler = .auditing) : CanEnd s := by
  apply CanEnd.before (.audited true)
  simp only [step, if_pos h, afterAudit]
  split
  · exact ⟨[], rfl⟩
  · exact canEnd_terminating rfl

/-- What the browser has sent before it left is handled first. -/
theorem canEnd_waiting {s : Session} (h : s.handler = .waiting) (hl : s.left = true) : CanEnd s := by
  generalize hi : s.inbox = inbox
  induction inbox generalizing s with
  | nil =>
    apply CanEnd.before .disconnects
    exact canEnd_auditing (by simp [step, h, hi, hl])
  | cons m rest ih =>
    apply CanEnd.before .receives
    simp only [step, h, hi, receive]
    split
    · exact ih rfl hl rfl
    · apply CanEnd.before .drained
      exact ih rfl hl rfl

theorem canEnd_left {s : Session} (h : s.handler ≠ .raised) (hl : s.left = true) : CanEnd s := by
  cases hs : s.handler with
  | connecting =>
    apply CanEnd.before .fails
    simp only [step, if_pos hs]
    exact canEnd_waiting rfl hl
  | waiting => exact canEnd_waiting hs hl
  | draining =>
    apply CanEnd.before .drained
    simp only [step, if_pos hs]
    exact canEnd_waiting rfl hl
  | auditing => exact canEnd_auditing hs
  | terminating => exact canEnd_terminating hs
  | ended => exact ⟨[], hs⟩
  | raised => exact absurd hs h

/-- From one state to a later one with these steps in between: the handler has raised before, the
task has not been cancelled, and `ssh` and its directory are there unless `ssh` has exited itself. -/
structure Abandoned (es : List Event) (s t : Session) : Prop where
  handler : t.handler = .raised
  reader : s.reader ≠ .cancelled → t.reader ≠ .cancelled
  process : .exits ∉ es → t.process = s.process
  tempdir : t.tempdir = s.tempdir

theorem Abandoned.refl {s : Session} (h : s.handler = .raised) : Abandoned [] s s :=
  ⟨h, id, fun _ => rfl, rfl⟩

theorem Abandoned.trans {es fs : List Event} {s t u : Session} (h : Abandoned es s t)
    (h' : Abandoned fs t u) : Abandoned (es ++ fs) s u := by
  refine ⟨h'.handler, fun hs => h'.reader (h.reader hs), fun hn => ?_, h'.tempdir.trans h.tempdir⟩
  rw [List.mem_append, not_or] at hn
  exact (h'.process hn.2).trans (h.process hn.1)

/-- Steps of the others. -/
theorem raised_step {s : Session} (h : s.handler = .raised) (e : Event) : Abandoned [e] s (step s e) := by
  cases e with
  | types m | prints b | closesStdin =>
    simp only [step]
    split <;> exact ⟨h, id, fun _ => rfl, rfl⟩
  | reads n | readsEnd | closes | sends =>
    simp only [step]
    split
    · exact ⟨h, by simp, fun _ => rfl, rfl⟩
    · exact ⟨h, id, fun _ => rfl, rfl⟩
  | exits =>
    simp only [step]
    split
    · exact ⟨h, id, by simp, rfl⟩
    · exact ⟨h, id, fun _ => rfl, rfl⟩
  | leaves => exact ⟨h, id, fun _ => rfl, rfl⟩
  | _ => simp only [step, h, reduceCtorEq, false_and, if_false]; exact ⟨h, id, fun _ => rfl, rfl⟩

theorem raised_run {s : Session} (h : s.handler = .raised) (es : List Event) :
    Abandoned es s (run step s es) := by
  induction es generalizing s with
  | nil => exact Abandoned.refl h
  | cons e es ih =>
    have hone := raised_step h e
    exact hone.trans (ih hone.handler)

theorem canEnd_iff (s : Session) : CanEnd s ↔ s.handler ≠ .raised := by
  constructor
  · rintro ⟨fs, hfs⟩ hraised
    simp [(raised_run hraised fs).handler] at hfs
  · intro h
    apply CanEnd.before .leaves
    exact canEnd_left h rfl

/-- The message is written to an `ssh` that no longer reads, and `drain` raises. -/
def Raises (s : Session) (e : Event) : Prop :=
  e = .drainRaises ∧ s.handler = .draining ∧ s.stdinOpen = false

theorem step_raised_iff {s : Session} (h : s.handler ≠ .raised) (e : Event) :
    (step s e).handler ≠ .raised ↔ ¬ Raises s e := by
  cases e with
  | drainRaises =>
    simp only [step, Raises]
    split <;> simp_all
  | receives =>
    simp only [step, receive, Raises]
    split
    · split <;> simp_all
    · simp_all
  | audited noticed =>
    simp only [step, afterAudit, Raises]
    split
    · split <;> simp
    · simp_all
  | sends =>
    simp only [step, Raises]
    split <;> simp_all
  | leaves => simp [step, h, Raises]
  | _ =>
    simp only [step, Raises]
    split <;> simp_all

/-- Only `disconnect` cancels the task. -/
theorem cancelled_step {s : Session}
    (h : s.reader = .cancelled → s.handler = .terminating ∨ s.handler = .ended) (e : Event) :
    (step s e).reader = .cancelled → (step s e).handler = .terminating ∨ (step s e).handler = .ended := by
  cases e with
  | receives =>
    simp only [step]
    split
    · simp only [receive]
      split <;> simp_all
    · exact h
  | audited noticed =>
    simp only [step]
    split
    · simp only [afterAudit]
      split <;> simp
    · exact h
  | leaves => exact h
  | types m | prints b | closesStdin | exits =>
    simp only [step]
    split <;> exact h
  | _ =>
    simp only [step]
    split <;> simp_all

theorem not_cancelled (es : List Event) (h : (run step start es).handler = .draining) :
    (run step start es).reader ≠ .cancelled := by
  have hinv := run_preserves
    (I := fun s : Session => s.reader = .cancelled → s.handler = .terminating ∨ s.handler = .ended)
    (fun s e hs => cancelled_step hs e) (s := start) (by simp [start]) es
  intro hc
  simpa [h] using hinv hc

/-- A message that is still on its way when `ssh` exits. -/
example : Raises (run step start [.mkdtemp, .spawns, .types (.bytes [10]), .exits, .receives])
    .drainRaises :=
  ⟨rfl, by decide, by decide⟩

end Keywarden.ShellRelay
