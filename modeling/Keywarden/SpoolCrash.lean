import Mathlib.Data.Char
import Mathlib.Data.List.Lex
import Mathlib.Data.List.Sort
import Keywarden.Rows
import Keywarden.Text
import Keywarden.Transitions

/-!
# A spool directory over kills

`SaveSpool` writes a payload to a temporary file and renames it when it is complete.
`DrainSpool` sends every file of the directory, whatever its name, so what a killed call
has left in a temporary file is sent as well.
-/
namespace Keywarden.SpoolCrash

open Rows Text Transitions

abbrev Bytes := List UInt8

structure File where
  name : List Char
  data : Bytes
  deriving DecidableEq, Repr

instance : Keyed File (List Char) := ⟨File.name⟩

@[simp] theorem key_file (f : File) : Keyed.key f = f.name := rfl

/-- What happens at once: a kill comes between two of these or not at all. -/
inductive Step where
  | wrote (name : List Char) (data : Bytes)
  | renamed (source target : List Char)
  | sent (data : Bytes)
  | removed (name : List Char)
  deriving DecidableEq, Repr

/-- The directory, the payloads that `SaveSpool` has been given and those that
`DrainSpool` has handed to `send`. -/
structure World where
  dir : Table File
  given : List Bytes
  sent : List Bytes

def exec (w : World) : Step → World
  | .wrote name data => { w with dir := w.dir.upsert ⟨name, data⟩ }
  | .renamed source target =>
    match w.dir.find source with
    | none => w
    | some f => { w with dir := (w.dir.delete source).upsert ⟨target, f.data⟩ }
  | .sent data => { w with sent := w.sent ++ [data] }
  | .removed name => { w with dir := w.dir.delete name }

/-- A call of `SaveSpool` at some time. The write of its temporary file has got `bytes` of
them out when it is interrupted. The call stops after so many steps when it is killed or a
system call fails. -/
structure Save where
  payload : Bytes
  unixNano : Nat
  bytes : Nat
  stopped : Option Nat

def Save.name (s : Save) : List Char := str s.unixNano ++ ".json".toList
def Save.tmp (s : Save) : List Char := s.name ++ ".tmp".toList

def Save.steps (s : Save) : List Step :=
  [.wrote s.tmp [], .wrote s.tmp (s.payload.take s.bytes), .wrote s.tmp s.payload,
    .renamed s.tmp s.name]

def Save.done (s : Save) : List Step := cut s.stopped s.steps

def files (dir : Table File) : List File := dir.toList.insertionSort fun f g => f.name ≤ g.name

/-- `DrainSpool` stops as well at the first file that cannot be read, sent or removed. -/
def drainSteps (dir : Table File) : List Step :=
  (files dir).flatMap fun f => [.sent f.data, .removed f.name]

inductive Call where
  | save (s : Save)
  | drain (stopped : Option Nat)

def call (w : World) : Call → World
  | .save s => run exec { w with given := w.given ++ [s.payload] } s.done
  | .drain stopped => run exec w (cut stopped (drainSteps w.dir))

def start : World := ⟨.empty, [], []⟩

def OnlyGiven (w : World) : Prop := ∀ p ∈ w.sent, p ∈ w.given

/-- The call does not leave its temporary file with anything but a payload that has been
given. -/
def WritesWhole (w : World) : Call → Prop
  | .save s => ∀ data, s.done.getLast? = some (.wrote s.tmp data) → data ∈ w.given ++ [s.payload]
  | .drain _ => True

/-- Every file holds a given payload. -/
structure Whole (w : World) : Prop where
  files : ∀ f ∈ w.dir, f.data ∈ w.given
  sent : OnlyGiven w

variable {w : World}

theorem given_run (w : World) (steps : List Step) : (run exec w steps).given = w.given := by
  refine run_invariant (P := fun _ _ => True) (I := fun v => v.given = w.given) ?_ rfl
    (along_of_mem w fun _ _ => trivial)
  rintro v (_ | _ | _ | _) hv _
  · exact hv
  · simp only [exec]
    split <;> exact hv
  · exact hv
  · exact hv

/-! ## A drain -/

@[simp] theorem mem_files (dir : Table File) (f : File) : f ∈ files dir ↔ f ∈ dir := by
  rw [files, List.mem_insertionSort, Table.mem_toList]

/-- A drain sends files of the directory and adds none. -/
theorem whole_drain (h : Whole w) (stopped : Option Nat) : Whole (call w (.drain stopped)) := by
  have hall : Whole (call w (.drain stopped)) ∧ (call w (.drain stopped)).given = w.given := by
    refine run_invariant (P := fun _ step => step ∈ drainSteps w.dir)
      (I := fun v => Whole v ∧ v.given = w.given) ?_ ⟨h, rfl⟩
      (along_of_mem w fun step hstep => (cut_initial stopped _).subset hstep)
    rintro v step ⟨hwhole, hv⟩ hstep
    obtain ⟨f, hf, hstep⟩ := List.mem_flatMap.mp hstep
    simp only [List.mem_cons, List.not_mem_nil, or_false] at hstep
    obtain rfl | rfl := hstep
    · refine ⟨⟨hwhole.files, fun p hp => ?_⟩, hv⟩
      obtain hp | hp := List.mem_append.mp hp
      · exact hwhole.sent p hp
      · rw [List.mem_singleton.mp hp]
        exact hv ▸ h.files f ((mem_files _ _).mp hf)
    · exact ⟨⟨fun g hg => hwhole.files g ((Table.mem_delete _ _ _).mp hg).1, hwhole.sent⟩, hv⟩
  exact hall.1

/-- A drain that nothing stops sends every file. -/
theorem sent_drain {f : File} (hf : f ∈ w.dir) : f.data ∈ (call w (.drain none)).sent := by
  have hsent : ∀ (l : List File) (v : World), f ∈ l ∨ f.data ∈ v.sent →
      f.data ∈ (run exec v (l.flatMap fun f => [.sent f.data, .removed f.name])).sent := by
    intro l
    induction l with
    | nil =>
      rintro v (hl | hv)
      · cases hl
      · exact hv
    | cons g l ih =>
      intro v h
      refine ih _ ?_
      obtain hl | hv := h
      · obtain rfl | hl := List.mem_cons.mp hl
        · exact .inr (List.mem_append_right _ (List.mem_singleton_self _))
        · exact .inl hl
      · exact .inr (List.mem_append_left _ hv)
  exact hsent (files w.dir) w (.inl ((mem_files _ _).mpr hf))

/-! ## A save -/

/-- All files but one hold given payloads. -/
structure WholeBut (name : List Char) (w : World) : Prop where
  files : ∀ f ∈ w.dir, f.name ≠ name → f.data ∈ w.given
  sent : OnlyGiven w

theorem wholeBut_writes {name : List Char} (h : WholeBut name w) (ds : List Bytes) :
    WholeBut name (run exec w (ds.map (.wrote name))) ∧
      (run exec w (ds.map (.wrote name))).given = w.given := by
  induction ds generalizing w with
  | nil => exact ⟨h, rfl⟩
  | cons d ds ih =>
    refine ih ⟨fun f hf hne => ?_, h.sent⟩
    obtain rfl | ⟨hf, _⟩ := (Table.mem_upsert _ _ _).mp hf
    · exact absurd rfl hne
    · exact h.files f hf hne

/-- Of several writes of one file the last one counts. -/
theorem whole_writes {name : List Char} (h : WholeBut name w) (ds : List Bytes) {d : Bytes}
    (hd : d ∈ w.given) : Whole (run exec w ((ds ++ [d]).map (.wrote name))) := by
  obtain ⟨hbut, hgiven⟩ := wholeBut_writes h ds
  rw [List.map_append, run_append]
  refine ⟨fun f hf => ?_, hbut.sent⟩
  obtain rfl | ⟨hf, hne⟩ := (Table.mem_upsert _ _ _).mp hf
  · exact hgiven ▸ hd
  · exact hbut.files f hf hne

theorem whole_renamed (h : Whole w) (source target : List Char) :
    Whole (exec w (.renamed source target)) := by
  simp only [exec]
  split
  · exact h
  · next f hfind =>
    refine ⟨fun g hg => ?_, h.sent⟩
    obtain rfl | ⟨hg, _⟩ := (Table.mem_upsert _ _ _).mp hg
    · exact h.files f ((Table.find_eq_some _ _ _).mp hfind).1
    · exact h.files g ((Table.mem_delete _ _ _).mp hg).1

theorem whole_save (h : Whole w) (s : Save) (hs : WritesWhole w (.save s)) :
    Whole (call w (.save s)) := by
  let v : World := { w with given := w.given ++ [s.payload] }
  have hv : Whole v :=
    ⟨fun f hf => List.mem_append_left _ (h.files f hf), fun p hp => List.mem_append_left _ (h.sent p hp)⟩
  have hbut : WholeBut s.tmp v := ⟨fun f hf _ => hv.files f hf, hv.sent⟩
  have hpayload : s.payload ∈ v.given := List.mem_append_right _ (List.mem_singleton_self _)
  have hpre : s.done <+: [[], s.payload.take s.bytes, s.payload].map (.wrote s.tmp) ++
      [.renamed s.tmp s.name] := cut_initial _ _
  obtain hdone | hpre := List.prefix_concat_iff.mp hpre
  · rw [call, hdone, run_append]
    exact whole_renamed (whole_writes hbut [[], s.payload.take s.bytes] hpayload) _ _
  · obtain ⟨ds, _, hdone⟩ := List.prefix_map_iff.mp hpre
    rw [call, hdone]
    obtain rfl | ⟨init, d, rfl⟩ := List.eq_nil_or_concat' ds
    · exact hv
    · refine whole_writes hbut init (hs d ?_)
      rw [hdone, List.map_append]
      exact List.getLast?_concat

/-! ## Runs -/

theorem whole_call (h : Whole w) {c : Call} (hc : WritesWhole w c) : Whole (call w c) := by
  cases c with
  | save s => exact whole_save h s hc
  | drain stopped => exact whole_drain h stopped

/-- In any run of calls from an empty directory in which none leaves a part of a payload in
its temporary file, only given payloads are ever sent. -/
theorem onlyGiven_run (calls : List Call) (hc : Along call WritesWhole start calls) :
    Always call OnlyGiven start calls := by
  have hwhole : Always call Whole start calls :=
    always_invariant (fun _ _ h hc => whole_call h hc)
      ⟨fun f hf => absurd hf (Table.not_mem_empty f), fun p hp => absurd hp List.not_mem_nil⟩ hc
  rw [always_iff] at hwhole ⊢
  exact fun cs hcs => (hwhole cs hcs).sent

/-- A save that leaves a part of a payload is the end of that: a drain that nothing stops
sends it. -/
theorem onlyGiven_next_iff (h : Whole w) (s : Save) :
    OnlyGiven (run call w [.save s, .drain none]) ↔ WritesWhole w (.save s) := by
  constructor
  · intro hsent data hlast
    have hleft : (⟨s.tmp, data⟩ : File) ∈ (call w (.save s)).dir := by
      obtain ⟨init, hinit⟩ := List.getLast?_eq_some_iff.mp hlast
      rw [call, hinit, run_append]
      exact (Table.mem_upsert _ _ _).mpr (.inl rfl)
    have hgiven : (run call w [.save s, .drain none]).given = w.given ++ [s.payload] :=
      (given_run _ _).trans (given_run _ _)
    rw [← hgiven]
    exact hsent data (sent_drain hleft)
  · intro hs
    exact (whole_drain (whole_save h s hs) none).sent

/-! ## A save that is killed -/

/-- A save of two bytes at time 1 whose write gets one of them out at first. -/
def saving (stopped : Option Nat) : Save := ⟨[1, 2], 1, 1, stopped⟩

/-- One save is done, one is killed before it renames its file. -/
theorem onlyGiven_saving :
    Always call OnlyGiven start [.save (saving none), .save (saving (some 3)), .drain none] := by
  refine onlyGiven_run _ ⟨?_, ?_, trivial, trivial⟩
  · rintro data ⟨⟩
  · rintro data ⟨⟩
    exact List.mem_append_right _ (List.mem_singleton_self _)

/-- A save is killed half way through its write; the next drain sends the half. -/
theorem half_sent : ¬ ∀ calls : List Call, Always call OnlyGiven start calls := by
  intro h
  have hlast := always_last (h [.save (saving (some 2)), .drain none])
  exact absurd (hlast [1] (by decide +kernel)) (by decide +kernel)

end Keywarden.SpoolCrash
