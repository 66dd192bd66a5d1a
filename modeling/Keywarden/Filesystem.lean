import Mathlib.Data.List.Basic
import Mathlib.Data.Nat.Bitwise

/-!
# A filesystem with symbolic links

Inodes, the resolution of a path by the kernel, and the system calls of a privileged
process. Each call resolves its own path. Resolution looks only at the nodes, so a change
of mode or owner leaves it alone, and whatever it has found it finds again in a filesystem
with more entries.
-/
namespace Filesystem

abbrev Ino := Nat

abbrev Name := List Char

def dot : Name := ['.']

def dotdot : Name := ['.', '.']

inductive Node where
  | file : List Char → Node
  | dir (parent : Ino) (entries : List (Name × Ino))
  | symlink (target : List Char)
  deriving DecidableEq, Repr

structure Inode where
  node : Node
  mode : Nat
  uid : Nat
  gid : Nat
  deriving DecidableEq, Repr

/-- Inode numbers from `next` on are not in use. -/
structure Fs where
  inode : Ino → Option Inode
  next : Ino
  bounded : ∀ i, next ≤ i → inode i = none

inductive Errno where
  | enoent | enotdir | eloop | eexist | eisdir
  deriving DecidableEq, Repr

/-- What the kernel keeps for a process. -/
structure Caller where
  root : Ino
  cwd : Ino
  umask : Nat

/-! ## Path resolution -/

section Resolution

abbrev Nodes := Ino → Option Node

def entry (nodes : Nodes) (d : Ino) (name : Name) : Option Ino :=
  match nodes d with
  | some (.dir parent entries) =>
    if name = dot then some d else if name = dotdot then some parent else entries.lookup name
  | _ => none

/-- `absent` when only the last name is missing. -/
inductive Walk where
  | found : Ino → Walk
  | absent : Ino → Name → Walk
  | failed : Errno → Walk
  deriving DecidableEq, Repr

/-- The way along the names up to the first link that is followed. -/
def walkWith (nodes : Nodes) (jump : Ino → List Char → List Name → Walk) (follow : Bool) :
    Ino → List Name → Walk
  | d, [] => .found d
  | d, name :: names =>
    match nodes d with
    | some (.dir _ _) =>
      match entry nodes d name with
      | none => if names = [] then .absent d name else .failed .enoent
      | some i =>
        match nodes i with
        | some (.symlink target) =>
          if names = [] ∧ follow = false then .found i else jump d target names
        | some (.dir _ _) => walkWith nodes jump follow i names
        | some (.file _) => if names = [] then .found i else .failed .enotdir
        | none => .failed .enoent
    | _ => .failed .enotdir

/-- The names in a target; a slash at its end asks for a directory. -/
def targetNames (target : List Char) : List Name :=
  (target.splitOn '/').filter (· ≠ []) ++ if target.getLast? = some '/' then [dot] else []

/-- The whole way, with so many links left to follow. -/
def walk (nodes : Nodes) (root : Ino) (follow : Bool) : Nat → Ino → List Name → Walk
  | 0 => walkWith nodes (fun _ _ _ => .failed .eloop) follow
  | links + 1 => walkWith nodes
    (fun d target names => walk nodes root follow links (if target.head? = some '/' then root else d)
      (targetNames target ++ names)) follow

end Resolution

/-! ## Paths -/

/-- Where a path starts: at the root or so many directories above the working one. -/
structure Base where
  rooted : Bool
  up : Nat
  deriving DecidableEq, Repr

/-- A path without `.` and with `..` at most in its base; the last name comes first. -/
structure Path extends Base where
  names : List Name
  plain : ∀ name ∈ names, name ≠ dot ∧ name ≠ dotdot

def Path.push (p : Path) (name : Name) : Path :=
  if name = [] then p
  else if hdot : name = dot then p
  else if hdotdot : name = dotdot then
    match h : p.names with
    | [] => if p.rooted then p else { p with up := p.up + 1, names := [], plain := by simp }
    | _ :: rest => { p with
        names := rest
        plain := fun n hn => p.plain n (by rw [h]; exact List.mem_cons_of_mem _ hn) }
  else { p with
    names := name :: p.names
    plain := fun n hn => by
      obtain rfl | hn := List.mem_cons.mp hn
      · exact ⟨hdot, hdotdot⟩
      · exact p.plain n hn }

theorem Path.push_plain (p : Path) (name : Name) (hne : name ≠ [])
    (hplain : name ≠ dot ∧ name ≠ dotdot) :
    (p.push name).toBase = p.toBase ∧ (p.push name).names = name :: p.names := by
  unfold Path.push
  rw [if_neg hne, dif_neg hplain.1, dif_neg hplain.2]
  exact ⟨rfl, rfl⟩

/-- Lexical cleaning. -/
def clean (s : List Char) : Path :=
  (s.splitOn '/').foldl Path.push ⟨⟨s.head? = some '/', 0⟩, [], by simp⟩

def Path.text (p : Path) : List Char :=
  (if p.rooted then ['/'] else []) ++
    List.intercalate ['/'] (List.replicate p.up dotdot ++ p.names.reverse)

def Fs.nodes (fs : Fs) : Nodes := fun i => (fs.inode i).map Inode.node

def resolve (c : Caller) (fs : Fs) (follow : Bool) (b : Base) (names : List Name) : Walk :=
  walk fs.nodes c.root follow 40 (if b.rooted then c.root else c.cwd)
    (List.replicate b.up dotdot ++ names.reverse)

/-! ## System calls -/

def Fs.isDir (fs : Fs) (i : Ino) : Bool :=
  match fs.nodes i with
  | some (.dir _ _) => true
  | _ => false

def Fs.alter (fs : Fs) (i : Ino) (f : Inode → Inode) : Fs where
  inode j := if j = i then (fs.inode j).map f else fs.inode j
  next := fs.next
  bounded j hj := by rw [fs.bounded j hj, Option.map_none, ite_self]

def Node.add (name : Name) (i : Ino) : Node → Node
  | .dir parent entries => .dir parent ((name, i) :: entries)
  | node => node

/-- A new inode under a name in a directory. -/
def Fs.create (fs : Fs) (d : Ino) (name : Name) (x : Inode) : Fs where
  inode j :=
    if j = fs.next then some x
    else if j = d then (fs.inode j).map fun y => { y with node := y.node.add name fs.next }
    else fs.inode j
  next := fs.next + 1
  bounded j hj := by
    rw [if_neg (Nat.ne_of_gt hj), fs.bounded j (Nat.le_of_succ_le hj), Option.map_none, ite_self]

/-- A new inode belongs to the process; the group comes from a directory that is setgid. -/
def newInode (c : Caller) (fs : Fs) (d : Ino) (node : Node) (perm : Nat) : Inode :=
  let setgid := (fs.inode d).any fun x => x.mode.testBit 10
  { node := node
    mode := perm - (perm &&& c.umask) +
      match node with
      | .dir _ _ => if setgid then 0o2000 else 0
      | _ => 0
    uid := 0
    gid := if setgid then ((fs.inode d).map Inode.gid).getD 0 else 0 }

def locate (c : Caller) (fs : Fs) (follow : Bool) (b : Base) (names : List Name) : Except Errno Ino :=
  match resolve c fs follow b names with
  | .found i => .ok i
  | .absent _ _ => .error .enoent
  | .failed e => .error e

def mkdir (c : Caller) (b : Base) (names : List Name) (perm : Nat) (fs : Fs) : Except Errno Fs :=
  match resolve c fs false b names with
  | .found _ => .error .eexist
  | .absent d name => .ok (fs.create d name (newInode c fs d (.dir d []) perm))
  | .failed e => .error e

def Inode.chmod (mode : Nat) (x : Inode) : Inode := { x with mode := mode }

def chmod (c : Caller) (p : Path) (mode : Nat) (fs : Fs) : Except Errno Fs :=
  match locate c fs true p.toBase p.names with
  | .error e => .error e
  | .ok i => .ok (fs.alter i (Inode.chmod mode))

/-- An id as the kernel takes it: 32 bits, of which all ones leave the owner as it is. -/
def ownerArg (id : Int) (old : Nat) : Nat :=
  if id % 2 ^ 32 = 2 ^ 32 - 1 then old else (id % 2 ^ 32).toNat

/-- What `chown` does to an inode. Anything but a directory loses setuid, and setgid where
the group may execute it. -/
def Inode.chown (uid gid : Int) (x : Inode) : Inode where
  node := x.node
  mode :=
    match x.node with
    | .dir _ _ => x.mode
    | _ => x.mode - (x.mode &&& 0o4000) - if x.mode.testBit 3 then x.mode &&& 0o2000 else 0
  uid := ownerArg uid x.uid
  gid := ownerArg gid x.gid

def chown (c : Caller) (p : Path) (uid gid : Int) (fs : Fs) : Except Errno Fs :=
  match locate c fs true p.toBase p.names with
  | .error e => .error e
  | .ok i => .ok (fs.alter i (Inode.chown uid gid))

def Inode.write (data : List Char) (x : Inode) : Inode := { x with node := .file data }

/-- Open for writing, create or truncate, write, close. -/
def writeFile (c : Caller) (p : Path) (data : List Char) (perm : Nat) (fs : Fs) : Except Errno Fs :=
  match resolve c fs true p.toBase p.names with
  | .found i =>
    match fs.nodes i with
    | some (.file _) => .ok (fs.alter i (Inode.write data))
    | _ => .error .eisdir
  | .absent d name => .ok (fs.create d name (newInode c fs d (.file data) perm))
  | .failed e => .error e

/-- The directory and those above it that are missing; above the names there is nothing to
make. -/
def mkdirAll (c : Caller) (b : Base) (perm : Nat) : List Name → Fs → Option Errno × Fs
  | [], fs => (none, fs)
  | name :: names, fs =>
    match locate c fs true b (name :: names) with
    | .ok i => if fs.isDir i then (none, fs) else (some .enotdir, fs)
    | .error _ =>
      match mkdirAll c b perm names fs with
      | (some e, fs) => (some e, fs)
      | (none, fs) =>
        match mkdir c b (name :: names) perm fs with
        | .ok fs => (none, fs)
        | .error e =>
          match locate c fs false b (name :: names) with
          | .ok i => if fs.isDir i then (none, fs) else (some e, fs)
          | .error _ => (some e, fs)

/-! ## What resolution finds -/

section Found

variable {nodes nodes' : Nodes} {root : Ino} {follow : Bool}

/-- Everything that was there is there, under the names it had. -/
structure Extends (nodes nodes' : Nodes) : Prop where
  entry : ∀ d name i, entry nodes d name = some i → entry nodes' d name = some i
  file : ∀ i data, nodes i = some (.file data) → ∃ data', nodes' i = some (.file data')
  dir : ∀ i parent es, nodes i = some (.dir parent es) → ∃ es', nodes' i = some (.dir parent es')
  symlink : ∀ i target, nodes i = some (.symlink target) → nodes' i = some (.symlink target)

/-- A name that was absent is followed to its end in the larger filesystem. -/
def Walk.Agrees (nodes' : Nodes) : Walk → Walk → Prop
  | .found i, w => w = .found i
  | .absent d name, w => ∀ i node, entry nodes' d name = some i → nodes' i = some node →
      (∀ target, node ≠ .symlink target) → w = .found i
  | .failed _, _ => True

theorem walkWith_extends (h : Extends nodes nodes') {jump jump' : Ino → List Char → List Name → Walk}
    (hjump : ∀ d target names, (jump d target names).Agrees nodes' (jump' d target names))
    (d : Ino) (names : List Name) :
    (walkWith nodes jump follow d names).Agrees nodes' (walkWith nodes' jump' follow d names) := by
  induction names generalizing d with
  | nil => rfl
  | cons name names ih =>
    unfold walkWith
    split
    · next parent es hd =>
      obtain ⟨es', hd'⟩ := h.dir d parent es hd
      simp only [hd']
      split
      · next hnone =>
        split
        · next hlast =>
          intro i node hi hnode hplain
          simp only [hi, hnode]
          cases node with
          | file data => rfl
          | dir parent' es'' =>
            rw [hlast]
            rfl
          | symlink target => exact absurd rfl (hplain target)
        · trivial
      · next i hi =>
        simp only [h.entry d name i hi]
        split
        · next target ht =>
          simp only [h.symlink i target ht]
          split
          · rfl
          · exact hjump d target names
        · next parent' es'' hi' =>
          obtain ⟨es₃, hi'⟩ := h.dir i parent' es'' hi'
          simp only [hi']
          exact ih i
        · next data hf =>
          obtain ⟨data', hf'⟩ := h.file i data hf
          simp only [hf']
          split
          · rfl
          · trivial
        · trivial
    · trivial

theorem walk_extends (h : Extends nodes nodes') (links : Nat) (d : Ino) (names : List Name) :
    (walk nodes root follow links d names).Agrees nodes' (walk nodes' root follow links d names) := by
  induction links generalizing d names with
  | zero =>
    refine walkWith_extends h (fun d target names => ?_) d names
    exact trivial
  | succ links ih => exact walkWith_extends h (fun _ _ _ => ih _ _) d names

/-- The directory exists and holds no such name. -/
def Missing (nodes : Nodes) (d : Ino) (name : Name) : Prop :=
  (∃ parent es, nodes d = some (.dir parent es)) ∧ entry nodes d name = none

theorem walkWith_absent {jump : Ino → List Char → List Name → Walk} {d d' : Ino} {name : Name}
    {names : List Name}
    (hjump : ∀ d target names, jump d target names = .absent d' name → Missing nodes d' name)
    (h : walkWith nodes jump follow d names = .absent d' name) : Missing nodes d' name := by
  induction names generalizing d with
  | nil => cases h
  | cons n names ih =>
    unfold walkWith at h
    split at h
    · next parent es hd =>
      split at h
      · next hnone =>
        split at h
        · cases h
          exact ⟨⟨parent, es, hd⟩, hnone⟩
        · cases h
      · split at h
        · split at h
          · cases h
          · exact hjump _ _ _ h
        · exact ih h
        · split at h <;> cases h
        · cases h
    · cases h

theorem walk_absent {links : Nat} {d d' : Ino} {names : List Name} {name : Name}
    (h : walk nodes root follow links d names = .absent d' name) : Missing nodes d' name := by
  induction links generalizing d names with
  | zero => exact walkWith_absent (fun _ _ _ hj => by cases hj) h
  | succ links ih => exact walkWith_absent (fun _ _ _ hj => ih hj) h

/-- Following the last name makes a difference only where it is a link. -/
theorem walkWith_follow {jump jump' : Ino → List Char → List Name → Walk} {d : Ino}
    {names : List Name}
    (hjump : ∀ d target names, (∀ i target', jump d target names = .found i →
      nodes i ≠ some (.symlink target')) → jump' d target names = jump d target names)
    (h : ∀ i target, walkWith nodes jump false d names = .found i → nodes i ≠ some (.symlink target)) :
    walkWith nodes jump' true d names = walkWith nodes jump false d names := by
  induction names generalizing d with
  | nil => rfl
  | cons name names ih =>
    unfold walkWith at h ⊢
    split
    · next parent es hd =>
      simp only [hd] at h
      split
      · rfl
      · next i hi =>
        simp only [hi] at h
        split
        · next target ht =>
          simp only [ht, and_true] at h
          rw [if_neg (by simp)]
          by_cases hlast : names = []
          · exact absurd ht (h i target (if_pos hlast))
          · rw [if_neg (by simp [hlast])]
            simp only [if_neg hlast] at h
            exact hjump d target names h
        · next parent' es' hi' =>
          simp only [hi'] at h
          exact ih h
        · rfl
        · rfl
    · rfl

theorem walk_follow {links : Nat} {d : Ino} {names : List Name}
    (h : ∀ i target, walk nodes root false links d names = .found i → nodes i ≠ some (.symlink target)) :
    walk nodes root true links d names = walk nodes root false links d names := by
  induction links generalizing d names with
  | zero => exact walkWith_follow (fun _ _ _ _ => rfl) h
  | succ links ih => exact walkWith_follow (fun _ _ _ hj => ih hj) h

/-- One more name, which the directory that was found does not hold. -/
theorem walkWith_snoc {jump jump' : Ino → List Char → List Name → Walk} {d i : Ino}
    {names : List Name} {name : Name} (hdir : ∃ parent es, nodes i = some (.dir parent es))
    (hnone : entry nodes i name = none)
    (hjump : ∀ d target names, jump d target names = .found i →
      jump' d target (names ++ [name]) = .absent i name)
    (h : walkWith nodes jump true d names = .found i) :
    walkWith nodes jump' follow d (names ++ [name]) = .absent i name := by
  obtain ⟨parent, es, hi⟩ := hdir
  induction names generalizing d with
  | nil =>
    cases h
    simp only [List.nil_append, walkWith, hi, hnone, if_true]
  | cons n names ih =>
    have hmore : names ++ [name] ≠ [] := by simp
    rw [List.cons_append]
    unfold walkWith at h ⊢
    split at h
    · split at h
      · split at h <;> cases h
      · split at h
        · simp only [Bool.true_eq_false, and_false, if_false] at h
          simp only [hmore, false_and, if_false]
          exact hjump _ _ _ h
        · exact ih h
        · next data hf =>
          split at h
          · cases h
            rw [hi] at hf
            cases hf
          · cases h
        · cases h
    · cases h

theorem walk_snoc {links : Nat} {d i : Ino} {names : List Name} {name : Name}
    (hdir : ∃ parent es, nodes i = some (.dir parent es)) (hnone : entry nodes i name = none)
    (h : walk nodes root true links d names = .found i) :
    walk nodes root follow links d (names ++ [name]) = .absent i name := by
  induction links generalizing d names with
  | zero => exact walkWith_snoc hdir hnone (fun _ _ _ hj => by cases hj) h
  | succ links ih =>
    refine walkWith_snoc hdir hnone (fun d target names hj => ?_) h
    rw [← List.append_assoc]
    exact ih hj

end Found

/-! ## What the calls change -/

section Calls

variable {c : Caller} {fs fs' fs'' : Fs} {b : Base} {names : List Name}

@[simp] theorem isDir_iff {i : Ino} :
    fs.isDir i = true ↔ ∃ parent es, fs.nodes i = some (.dir parent es) := by
  unfold Fs.isDir
  split
  · next parent es h => exact ⟨fun _ => ⟨parent, es, h⟩, fun _ => rfl⟩
  · next h =>
    refine ⟨fun hf => (by cases hf), ?_⟩
    rintro ⟨parent, es, hd⟩
    exact absurd hd (h parent es)

theorem alter_inode (fs : Fs) (i j : Ino) (f : Inode → Inode) :
    (fs.alter i f).inode j = if j = i then (fs.inode j).map f else fs.inode j := rfl

theorem create_inode (fs : Fs) (d j : Ino) (name : Name) (x : Inode) :
    (fs.create d name x).inode j = if j = fs.next then some x
      else if j = d then (fs.inode j).map fun y => { y with node := y.node.add name fs.next }
      else fs.inode j := rfl

theorem nodes_alter {i : Ino} {f : Inode → Inode} (h : ∀ x, (f x).node = x.node) :
    (fs.alter i f).nodes = fs.nodes := by
  funext j
  rw [Fs.nodes, Fs.nodes, alter_inode]
  split
  · rw [Option.map_map]
    congr 1
    funext x
    exact h x
  · rfl

@[simp] theorem nodes_chmod (fs : Fs) (i : Ino) (mode : Nat) :
    (fs.alter i (Inode.chmod mode)).nodes = fs.nodes := nodes_alter fun _ => rfl

@[simp] theorem nodes_chown (fs : Fs) (i : Ino) (uid gid : Int) :
    (fs.alter i (Inode.chown uid gid)).nodes = fs.nodes := nodes_alter fun _ => rfl

theorem nodes_create (fs : Fs) (d j : Ino) (name : Name) (x : Inode) :
    (fs.create d name x).nodes j = if j = fs.next then some x.node
      else if j = d then (fs.nodes j).map (Node.add name fs.next) else fs.nodes j := by
  rw [Fs.nodes, create_inode, Fs.nodes]
  split
  · rfl
  split
  · rw [Option.map_map, Option.map_map]
    rfl
  · rfl

theorem nodes_next (fs : Fs) : fs.nodes fs.next = none := by
  rw [Fs.nodes, fs.bounded fs.next (Nat.le_refl _), Option.map_none]

/-- A node that is there is not the next one. -/
theorem ne_next {i : Ino} {node : Node} (h : fs.nodes i = some node) : i ≠ fs.next := by
  rintro rfl
  rw [nodes_next] at h
  cases h

theorem entry_dir {nodes : Nodes} {d parent : Ino} {es : List (Name × Ino)}
    (h : nodes d = some (.dir parent es)) (name : Name) :
    entry nodes d name =
      if name = dot then some d else if name = dotdot then some parent else es.lookup name := by
  rw [entry, h]

theorem dir_of_entry {nodes : Nodes} {d i : Ino} {name : Name} (h : entry nodes d name = some i) :
    ∃ parent es, nodes d = some (.dir parent es) := by
  unfold entry at h
  split at h
  · next parent es hd => exact ⟨parent, es, hd⟩
  · cases h

theorem nodes_create_dir {d : Ino} (x : Inode) (name : Name) {i parent : Ino}
    {es : List (Name × Ino)} (h : fs.nodes i = some (.dir parent es)) :
    (fs.create d name x).nodes i =
      some (.dir parent (if i = d then (name, fs.next) :: es else es)) := by
  rw [nodes_create, if_neg (ne_next h), h]
  split <;> rfl

theorem extends_create {d : Ino} {name : Name} (h : Missing fs.nodes d name) (x : Inode) :
    Extends fs.nodes (fs.create d name x).nodes where
  entry e n i hi := by
    obtain ⟨parent, es, he⟩ := dir_of_entry hi
    rw [entry_dir (nodes_create_dir x name he)]
    rw [entry_dir he] at hi
    split
    · next hdot => rwa [if_pos hdot] at hi
    · next hdot =>
      rw [if_neg hdot] at hi
      split
      · next hdotdot => rwa [if_pos hdotdot] at hi
      · next hdotdot =>
        rw [if_neg hdotdot] at hi
        split
        · next hd =>
          have hne : n ≠ name := by
            rintro rfl
            have hnone := h.2
            rw [← hd, entry_dir he, if_neg hdot, if_neg hdotdot, hi] at hnone
            cases hnone
          rw [List.lookup_cons, beq_eq_false_iff_ne.mpr hne]
          exact hi
        · exact hi
  file i data hi := by
    refine ⟨data, ?_⟩
    rw [nodes_create, if_neg (ne_next hi), hi]
    split <;> rfl
  dir i parent es hi := ⟨_, nodes_create_dir x name hi⟩
  symlink i target hi := by
    rw [nodes_create, if_neg (ne_next hi), hi]
    split <;> rfl

theorem entry_create {d : Ino} {name : Name} (h : Missing fs.nodes d name) (x : Inode) :
    entry (fs.create d name x).nodes d name = some fs.next := by
  obtain ⟨⟨parent, es, hd⟩, hnone⟩ := h
  rw [entry_dir hd] at hnone
  rw [entry_dir (nodes_create_dir x name hd)]
  split
  · next hdot => rw [if_pos hdot] at hnone; cases hnone
  · next hdot =>
    rw [if_neg hdot] at hnone
    split
    · next hdotdot => rw [if_pos hdotdot] at hnone; cases hnone
    · rw [if_pos rfl, List.lookup_cons, beq_self_eq_true]

theorem resolve_absent {follow : Bool} {d : Ino} {name : Name}
    (h : resolve c fs follow b names = .absent d name) : Missing fs.nodes d name :=
  walk_absent h

theorem resolve_nodes {follow : Bool} (h : fs'.nodes = fs.nodes) :
    resolve c fs' follow b names = resolve c fs follow b names := by
  rw [resolve, resolve, h]

/-- A directory that is found without following is found. -/
theorem resolve_dir {i : Ino} (h : resolve c fs false b names = .found i) (hdir : fs.isDir i = true) :
    resolve c fs true b names = .found i := by
  obtain ⟨parent, es, hi⟩ := isDir_iff.mp hdir
  rw [← h]
  refine walk_follow fun j target hj hlink => ?_
  have hsame : Walk.found i = .found j := h.symm.trans hj
  cases hsame
  rw [hi] at hlink
  cases hlink

theorem resolve_agrees (h : Extends fs.nodes fs'.nodes) (follow : Bool) :
    (resolve c fs follow b names).Agrees fs'.nodes (resolve c fs' follow b names) :=
  walk_extends h 40 _ _

/-- What has been created is what the path leads to. -/
theorem resolve_create {follow : Bool} {d : Ino} {name : Name}
    (h : resolve c fs follow b names = .absent d name) {x : Inode}
    (hx : ∀ target, x.node ≠ .symlink target) :
    resolve c (fs.create d name x) true b names = .found fs.next := by
  have hmissing := resolve_absent h
  have htrue : resolve c fs true b names = .absent d name := by
    cases follow with
    | true => exact h
    | false =>
      rw [← h]
      refine walk_follow fun i target hi => ?_
      have hsame : Walk.absent d name = .found i := h.symm.trans hi
      cases hsame
  have hagrees : (resolve c fs true b names).Agrees _ _ := resolve_agrees (extends_create hmissing x) true
  rw [htrue] at hagrees
  refine hagrees fs.next x.node (entry_create hmissing x) ?_ hx
  rw [nodes_create, if_pos rfl]

theorem extends_alter_file {i : Ino} {data : List Char} (hi : fs.nodes i = some (.file data))
    (data' : List Char) :
    Extends fs.nodes (fs.alter i (Inode.write data')).nodes := by
  have hother : ∀ j node, fs.nodes j = some node → (∀ data, node ≠ .file data) →
      (fs.alter i (Inode.write data')).nodes j = some node := by
    intro j node hj hne
    have hji : j ≠ i := by
      rintro rfl
      rw [hi] at hj
      cases hj
      exact hne data rfl
    rw [Fs.nodes, alter_inode, if_neg hji]
    exact hj
  constructor
  · intro d name j hj
    obtain ⟨parent, es, hd⟩ := dir_of_entry hj
    rw [entry_dir (hother d _ hd fun _ h => by cases h), ← entry_dir hd]
    exact hj
  · intro j text hj
    by_cases hji : j = i
    · refine ⟨data', ?_⟩
      obtain ⟨x, hx, _⟩ := Option.map_eq_some_iff.mp hj
      rw [Fs.nodes, alter_inode, if_pos hji, hx]
      rfl
    · refine ⟨text, ?_⟩
      rw [Fs.nodes, alter_inode, if_neg hji]
      exact hj
  · exact fun j parent es hj => ⟨es, hother j _ hj fun _ h => by cases h⟩
  · exact fun j target hj => hother j _ hj fun _ h => by cases h

theorem resolve_extends (h : Extends fs.nodes fs'.nodes) {i : Ino}
    (hi : resolve c fs true b names = .found i) : resolve c fs' true b names = .found i := by
  have hagrees : (resolve c fs true b names).Agrees _ _ := resolve_agrees h true
  rw [hi] at hagrees
  exact hagrees

/-! ## Growth -/

/-- The node is as it was, or a directory with new subdirectories. -/
def Node.Grows (fs fs' : Fs) (node node' : Node) : Prop :=
  node' = node ∨ ∃ parent es news, node = .dir parent es ∧ node' = .dir parent (news ++ es) ∧
    ∀ e ∈ news, fs.inode e.2 = none ∧ fs'.isDir e.2 = true

/-- Mode and owner are as they were, and the node has at most grown. -/
structure Inode.Grows (fs fs' : Fs) (x x' : Inode) : Prop where
  mode : x'.mode = x.mode
  uid : x'.uid = x.uid
  gid : x'.gid = x.gid
  node : x.node.Grows fs fs' x'.node

/-- All that happened to the inodes is that directories got new subdirectories. -/
def Grown (fs fs' : Fs) : Prop :=
  ∀ i x, fs.inode i = some x → ∃ x', fs'.inode i = some x' ∧ x.Grows fs fs' x'

theorem Inode.Grows.refl (x : Inode) : x.Grows fs fs' x := ⟨rfl, rfl, rfl, .inl rfl⟩

theorem Grown.refl (fs : Fs) : Grown fs fs := fun _ x hx => ⟨x, hx, .refl x⟩

/-- What is no directory that gained entries is what it was. -/
theorem Inode.Grows.eq {x x' : Inode} (h : x.Grows fs fs' x')
    (hnode : x'.node = x.node ∨ ∃ data, x.node = .file data) : x' = x := by
  obtain ⟨hmode, huid, hgid, hgrows⟩ := h
  have hsame : x'.node = x.node := by
    obtain hsame | ⟨data, hdata⟩ := hnode
    · exact hsame
    · obtain hsame | ⟨parent, es, news, hes, _⟩ := hgrows
      · exact hsame
      · rw [hdata] at hes
        cases hes
  cases x
  cases x'
  simp only at hmode huid hgid hsame
  rw [hmode, huid, hgid, hsame]

theorem Node.Grows.isDir {node node' : Node} (h : node.Grows fs fs' node') {parent : Ino}
    {es : List (Name × Ino)} (hd : node = .dir parent es) : ∃ es', node' = .dir parent es' := by
  obtain rfl | ⟨parent', es', news, rfl, rfl, _⟩ := h
  · exact ⟨es, hd⟩
  · cases hd
    exact ⟨news ++ es, rfl⟩

theorem Grown.isDir (h : Grown fs fs') {i : Ino} (hd : fs.isDir i = true) : fs'.isDir i = true := by
  obtain ⟨parent, es, hi⟩ := isDir_iff.mp hd
  obtain ⟨x, hx, hnode⟩ := Option.map_eq_some_iff.mp hi
  obtain ⟨x', hx', hgrows⟩ := h i x hx
  obtain ⟨es', hes'⟩ := hgrows.node.isDir hnode
  exact isDir_iff.mpr ⟨parent, es', by rw [Fs.nodes, hx', Option.map_some, hes']⟩

theorem Grown.fresh (h : Grown fs fs') {i : Ino} (hi : fs'.inode i = none) : fs.inode i = none := by
  cases hx : fs.inode i with
  | none => rfl
  | some x =>
    obtain ⟨x', hx', _⟩ := h i x hx
    rw [hi] at hx'
    cases hx'

theorem Extends.isDir (h : Extends fs.nodes fs'.nodes) {i : Ino} (hd : fs.isDir i = true) :
    fs'.isDir i = true := by
  obtain ⟨parent, es, hi⟩ := isDir_iff.mp hd
  obtain ⟨es', hi'⟩ := h.dir i parent es hi
  exact isDir_iff.mpr ⟨parent, es', hi'⟩

theorem Inode.Grows.mono {x x' : Inode} (h : x.Grows fs fs' x')
    (hdirs : Extends fs'.nodes fs''.nodes) : x.Grows fs fs'' x' := by
  refine ⟨h.mode, h.uid, h.gid, ?_⟩
  obtain hsame | ⟨parent, es, news, hes, hnews, hall⟩ := h.node
  · exact .inl hsame
  · exact .inr ⟨parent, es, news, hes, hnews, fun e he => ⟨(hall e he).1, hdirs.isDir (hall e he).2⟩⟩

theorem Node.Grows.trans (h : Grown fs fs') (h' : Grown fs' fs'') {node node' node'' : Node}
    (hn : node.Grows fs fs' node') (hn' : node'.Grows fs' fs'' node'') :
    node.Grows fs fs'' node'' := by
  obtain rfl | ⟨parent, es, news, rfl, rfl, hall⟩ := hn
  · obtain rfl | ⟨parent, es, news, rfl, rfl, hall⟩ := hn'
    · exact .inl rfl
    · exact .inr ⟨parent, es, news, rfl, rfl, fun e he => ⟨h.fresh (hall e he).1, (hall e he).2⟩⟩
  · have hkept : ∀ e ∈ news, fs.inode e.2 = none ∧ fs''.isDir e.2 = true :=
      fun e he => ⟨(hall e he).1, h'.isDir (hall e he).2⟩
    obtain rfl | ⟨parent', es', news', hes', rfl, hall'⟩ := hn'
    · exact .inr ⟨parent, es, news, rfl, rfl, hkept⟩
    · cases hes'
      refine .inr ⟨parent, es, news' ++ news, rfl, by rw [List.append_assoc], ?_⟩
      intro e he
      obtain he | he := List.mem_append.mp he
      · exact ⟨h.fresh (hall' e he).1, (hall' e he).2⟩
      · exact hkept e he

theorem Grown.trans (h : Grown fs fs') (h' : Grown fs' fs'') : Grown fs fs'' := by
  intro i x hx
  obtain ⟨x₁, hx₁, h₁⟩ := h i x hx
  obtain ⟨x₂, hx₂, h₂⟩ := h' i x₁ hx₁
  exact ⟨x₂, hx₂, h₂.mode.trans h₁.mode, h₂.uid.trans h₁.uid, h₂.gid.trans h₁.gid,
    h₁.node.trans h h' h₂.node⟩

/-- A subdirectory is added. -/
theorem Node.grows_add (node : Node) (name : Name) {i : Ino} (hi : fs.inode i = none)
    (hdir : fs'.isDir i = true) : node.Grows fs fs' (node.add name i) := by
  cases node with
  | dir parent es =>
    refine .inr ⟨parent, es, [(name, i)], rfl, rfl, fun e he => ?_⟩
    rw [List.mem_singleton.mp he]
    exact ⟨hi, hdir⟩
  | file data => exact .inl rfl
  | symlink target => exact .inl rfl

theorem grown_create {d : Ino} {name : Name} {x : Inode} (hx : ∃ parent es, x.node = .dir parent es) :
    Grown fs (fs.create d name x) := by
  obtain ⟨parent, es, hx⟩ := hx
  have hdir : (fs.create d name x).isDir fs.next = true :=
    isDir_iff.mpr ⟨parent, es, by rw [nodes_create, if_pos rfl, hx]⟩
  intro i y hy
  have hnode : fs.nodes i = some y.node := by rw [Fs.nodes, hy, Option.map_some]
  rw [create_inode, if_neg (ne_next hnode), hy]
  split
  · exact ⟨_, rfl, rfl, rfl, rfl, y.node.grows_add name (fs.bounded _ (Nat.le_refl _)) hdir⟩
  · exact ⟨y, rfl, .refl y⟩

theorem mkdir_ok {perm : Nat} (h : mkdir c b names perm fs = .ok fs') :
    Grown fs fs' ∧ ∃ i d, fs.inode i = none ∧ fs'.nodes i = some (.dir d []) ∧
      resolve c fs' true b names = .found i := by
  unfold mkdir at h
  split at h
  · cases h
  · next d name habsent =>
    cases h
    refine ⟨grown_create ⟨d, [], rfl⟩, fs.next, d, fs.bounded _ (Nat.le_refl _), ?_, ?_⟩
    · rw [nodes_create, if_pos rfl]
      rfl
    · exact resolve_create habsent fun target ht => by cases ht
  · cases h

/-- The directory was there and nothing has changed, or it is new and empty. -/
def Made (c : Caller) (b : Base) (names : List Name) (fs fs' : Fs) : Prop :=
  (fs' = fs ∧ (names = [] ∨ ∃ i, resolve c fs true b names = .found i ∧ fs.isDir i = true)) ∨
    ∃ i d, fs.inode i = none ∧ fs'.nodes i = some (.dir d []) ∧ resolve c fs' true b names = .found i

theorem locate_ok {follow : Bool} {i : Ino} (h : locate c fs follow b names = .ok i) :
    resolve c fs follow b names = .found i := by
  unfold locate at h
  split at h
  · next j hj => cases h; exact hj
  · cases h
  · cases h

theorem locate_found {follow : Bool} {i : Ino} (h : resolve c fs follow b names = .found i) :
    locate c fs follow b names = .ok i := by
  rw [locate, h]

/-- In the empty directory just made above it there is no directory yet. -/
theorem not_found_in_made {name : Name} (hname : name ≠ dot ∧ name ≠ dotdot) {i d j : Ino}
    (hempty : fs.nodes i = some (.dir d [])) (hi : resolve c fs true b names = .found i) :
    resolve c fs false b (name :: names) ≠ .found j := by
  have hnone : entry fs.nodes i name = none := by
    rw [entry_dir hempty, if_neg hname.1, if_neg hname.2]
    rfl
  intro hj
  rw [resolve, List.reverse_cons, ← List.append_assoc] at hj
  rw [resolve] at hi
  rw [walk_snoc ⟨d, [], hempty⟩ hnone hi] at hj
  cases hj

theorem mkdirAll_grown (c : Caller) (b : Base) (perm : Nat) (names : List Name) (fs : Fs) :
    Grown fs (mkdirAll c b perm names fs).2 := by
  induction names with
  | nil => exact .refl fs
  | cons name names ih =>
    unfold mkdirAll
    split
    · split <;> exact .refl fs
    · split
      · next e fs₁ hparent =>
        rw [hparent] at ih
        exact ih
      · next fs₁ hparent =>
        rw [hparent] at ih
        split
        · next fs₂ hmkdir => exact ih.trans (mkdir_ok hmkdir).1
        · split
          · split <;> exact ih
          · exact ih

theorem mkdirAll_ok {perm : Nat} (hplain : ∀ name ∈ names, name ≠ dot ∧ name ≠ dotdot)
    (h : mkdirAll c b perm names fs = (none, fs')) : Made c b names fs fs' := by
  induction names generalizing fs' with
  | nil =>
    cases h
    exact .inl ⟨rfl, .inl rfl⟩
  | cons name names ih =>
    unfold mkdirAll at h
    split at h
    · next i hi =>
      split at h
      · next hdir =>
        cases h
        exact .inl ⟨rfl, .inr ⟨i, locate_ok hi, hdir⟩⟩
      · cases h
    · next hmissing =>
      split at h
      · cases h
      · next fs₁ hparent =>
        have hmade := ih (fun n hn => hplain n (List.mem_cons_of_mem _ hn)) hparent
        have hfresh : ∀ i, fs₁.inode i = none → fs.inode i = none := by
          have hgrown := mkdirAll_grown c b perm names fs
          rw [hparent] at hgrown
          exact fun i hi => hgrown.fresh hi
        split at h
        · next fs₂ hmkdir =>
          cases h
          obtain ⟨_, i, d, hi, hempty, hfound⟩ := mkdir_ok hmkdir
          exact .inr ⟨i, d, hfresh i hi, hempty, hfound⟩
        · split at h
          · next j hj =>
            split at h
            · next hdir =>
              cases h
              exfalso
              obtain ⟨rfl, _⟩ | ⟨i, d, _, hempty, hi⟩ := hmade
              · have hfound := resolve_dir (locate_ok hj) hdir
                rw [locate_found hfound] at hmissing
                cases hmissing
              · exact not_found_in_made (hplain name List.mem_cons_self) hempty hi (locate_ok hj)
            · cases h
          · cases h

theorem mkdirAll_found {d : Ino} (perm : Nat) (hd : resolve c fs true b names = .found d)
    (hdir : fs.isDir d = true) : mkdirAll c b perm names fs = (none, fs) := by
  cases names with
  | nil => rfl
  | cons name names =>
    unfold mkdirAll
    rw [locate_found hd]
    exact if_pos hdir

end Calls

end Filesystem
