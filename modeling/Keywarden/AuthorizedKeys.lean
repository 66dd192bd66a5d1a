import Keywarden.AgentHost
import Keywarden.Filesystem

/-!
# The authorized keys in a home directory

`writeAuthorizedKeys` of the agent, system call by system call. The agent is root and each
call follows the links that the owner of the home directory has put there.
-/
namespace Keywarden.AuthorizedKeys

open Text Filesystem
open AgentHost (Failure keysPayload)

/-- What reading `/etc/passwd` gives: the lines, up to where opening or scanning fails. -/
structure Passwd where
  opened : Bool
  lines : List (List Char)
  scanned : Bool

structure PasswdEntry where
  uid : Int
  gid : Int
  home : List Char
  deriving DecidableEq, Repr

/-- `strconv.Atoi`. -/
def atoi (s : List Char) : Option Int :=
  let (negative, digits) :=
    match s with
    | '-' :: t => (true, t)
    | '+' :: t => (false, t)
    | _ => (false, s)
  if digits = [] ∨ digits.all Char.isDigit = false then none
  else
    let n : Int := Nat.ofDigitChars 10 digits 0
    let v := if negative then -n else n
    if -2 ^ 63 ≤ v ∧ v < 2 ^ 63 then some v else none

/-- `strings.SplitN`: so many pieces at most, the last with what is left. -/
def splitN (sep : Char) : Nat → List Char → List (List Char)
  | 0, _ => []
  | 1, s => [s]
  | n + 2, s =>
    match s.dropWhile (· ≠ sep) with
    | [] => [s]
    | _ :: rest => s.takeWhile (· ≠ sep) :: splitN sep (n + 1) rest

def lookupLine (username : List Char) : List (List Char) → Bool → Except Failure PasswdEntry
  | [], scanned => .error ⟨if scanned then "user not found" else "scan passwd", username⟩
  | line :: lines, scanned =>
    if line = [] ∨ line.head? = some '#' then lookupLine username lines scanned
    else match splitN ':' 7 line with
      | [name, _, uid, gid, _, home, _] =>
        if name ≠ username then lookupLine username lines scanned
        else match atoi uid, atoi gid with
          | none, _ => .error ⟨"parse uid for", username⟩
          | _, none => .error ⟨"parse gid for", username⟩
          | some uid, some gid => .ok ⟨uid, gid, home⟩
      | _ => lookupLine username lines scanned

def lookupUser (passwd : Passwd) (username : List Char) : Except Failure PasswdEntry :=
  if passwd.opened then lookupLine username passwd.lines passwd.scanned
  else .error ⟨"open passwd", username⟩

def sshDirName : Name := ".ssh".toList

def authKeysName : Name := "authorized_keys".toList

def sshDir (home : List Char) : Path := (clean home).push sshDirName

def authKeysPath (home : List Char) : Path := (sshDir home).push authKeysName

/-- What follows once the directory is there. -/
def fillSshDir (c : Filesystem.Caller) (e : PasswdEntry) (keys : List (List Char)) (fs : Fs) :
    Option Failure × Fs :=
  match chmod c (sshDir e.home) 0o700 fs with
  | .error _ => (some ⟨"chmod", (sshDir e.home).text⟩, fs)
  | .ok fs =>
    match chown c (sshDir e.home) e.uid e.gid fs with
    | .error _ => (some ⟨"chown", (sshDir e.home).text⟩, fs)
    | .ok fs =>
      match writeFile c (authKeysPath e.home) (keysPayload keys) 0o600 fs with
      | .error _ => (some ⟨"write", (authKeysPath e.home).text⟩, fs)
      | .ok fs =>
        match chown c (authKeysPath e.home) e.uid e.gid fs with
        | .error _ => (some ⟨"chown", (authKeysPath e.home).text⟩, fs)
        | .ok fs => (none, fs)

def writeAuthorizedKeys (c : Filesystem.Caller) (passwd : Passwd) (username : List Char)
    (keys : List (List Char)) (fs : Fs) : Option Failure × Fs :=
  match lookupUser passwd username with
  | .error e => (some e, fs)
  | .ok e =>
    if e.home = [] then (some ⟨"missing home dir for", username⟩, fs)
    else
      match mkdirAll c (sshDir e.home).toBase 0o700 (sshDir e.home).names fs with
      | (some _, fs) => (some ⟨"mkdir", (sshDir e.home).text⟩, fs)
      | (none, fs) => fillSshDir c e keys fs

/-! ## The frame -/

section Frame

variable (c : Filesystem.Caller) (e : PasswdEntry) (keys : List (List Char))

/-- `<home>/.ssh` itself, not what a link of that name leads to. -/
def OwnDir (fs : Fs) (d : Ino) : Prop :=
  resolve c fs false (sshDir e.home).toBase (sshDir e.home).names = .found d ∧ fs.isDir d = true

/-- The file under the name `authorized_keys` in it. -/
def OwnFile (fs : Fs) (f : Ino) : Prop :=
  ∃ d, OwnDir c e fs d ∧ entry fs.nodes d authKeysName = some f ∧ ∃ data, fs.nodes f = some (.file data)

/-- Every inode but the account's own two keeps content, mode and owner, except that a
directory may have got a subdirectory on the way to the home directory and `.ssh`. -/
def Untouched (passwd : Passwd) (username : List Char) (fs fs' : Fs) : Prop :=
  ∀ i x, fs.inode i = some x →
    (∀ e, lookupUser passwd username = .ok e → ¬ OwnDir c e fs i ∧ ¬ OwnFile c e fs i) →
    ∃ x', fs'.inode i = some x' ∧ x.Grows fs fs' x'

/-- The directory has the mode and the owner that it is to get. -/
structure Sealed (x : Inode) : Prop where
  mode : x.mode = 0o700
  uid : ownerArg e.uid x.uid = x.uid
  gid : ownerArg e.gid x.gid = x.gid

/-- The file has the content and the owner that it is to get. -/
structure Filled (x : Inode) : Prop where
  node : x.node = .file (keysPayload keys)
  owner : x.chown e.uid e.gid = x

/-- Where the path of the directory leads to one: that is the account's own or has its
mode and owner already; and the path of the file leads nowhere, to the account's own file,
to one that is as it is to be, or to a missing name in the account's own directory. -/
def Confined (fs : Fs) : Prop :=
  ∀ d, resolve c fs true (sshDir e.home).toBase (sshDir e.home).names = .found d →
    fs.isDir d = true →
    (OwnDir c e fs d ∨ ∀ x, fs.inode d = some x → Sealed e x) ∧
      match resolve c fs true (authKeysPath e.home).toBase (authKeysPath e.home).names with
      | .found f => ∀ data, fs.nodes f = some (.file data) →
        OwnFile c e fs f ∨ ∀ x, fs.inode f = some x → Filled e keys x
      | .absent d' _ => OwnDir c e fs d'
      | .failed _ => True

end Frame

/-! ## What is written -/

section Written

variable {c : Filesystem.Caller} {e : PasswdEntry} {keys : List (List Char)} {fs : Fs} {d : Ino}

/-- `Chmod` and `Chown` of the directory. -/
def sealDir (e : PasswdEntry) (d : Ino) (fs : Fs) : Fs :=
  (fs.alter d (Inode.chmod 0o700)).alter d (Inode.chown e.uid e.gid)

/-- `WriteFile` and `Chown` of a file that is there. -/
def fill (e : PasswdEntry) (keys : List (List Char)) (f : Ino) (fs : Fs) : Fs :=
  (fs.alter f (Inode.write (keysPayload keys))).alter f (Inode.chown e.uid e.gid)

/-- The two of a file that is new. -/
def addFile (c : Filesystem.Caller) (e : PasswdEntry) (keys : List (List Char)) (d : Ino)
    (name : Name) (fs : Fs) : Fs :=
  (fs.create d name (newInode c fs d (.file (keysPayload keys)) 0o600)).alter fs.next
    (Inode.chown e.uid e.gid)

theorem nodes_sealDir (e : PasswdEntry) (d : Ino) (fs : Fs) : (sealDir e d fs).nodes = fs.nodes := by
  rw [sealDir, nodes_chown, nodes_chmod]

theorem fillSshDir_eq
    (hd : resolve c fs true (sshDir e.home).toBase (sshDir e.home).names = .found d) :
    (fillSshDir c e keys fs).2 =
      match resolve c fs true (authKeysPath e.home).toBase (authKeysPath e.home).names with
      | .found f =>
        match fs.nodes f with
        | some (.file _) => fill e keys f (sealDir e d fs)
        | _ => sealDir e d fs
      | .absent d' name => addFile c e keys d' name (sealDir e d fs)
      | .failed _ => sealDir e d fs := by
  have hd₁ : resolve c (fs.alter d (Inode.chmod 0o700)) true (sshDir e.home).toBase
      (sshDir e.home).names = .found d := by
    rw [resolve_nodes (nodes_chmod fs d _), hd]
  have hwalk : resolve c (sealDir e d fs) true (authKeysPath e.home).toBase (authKeysPath e.home).names =
      resolve c fs true (authKeysPath e.home).toBase (authKeysPath e.home).names :=
    resolve_nodes (nodes_sealDir e d fs)
  unfold fillSshDir
  simp only [chmod, locate_found hd, chown, locate_found hd₁]
  change (match writeFile c (authKeysPath e.home) (keysPayload keys) 0o600 (sealDir e d fs) with
    | .error _ => (some _, sealDir e d fs)
    | .ok fs => _).2 = _
  simp only [writeFile, hwalk, nodes_sealDir]
  cases hak : resolve c fs true (authKeysPath e.home).toBase (authKeysPath e.home).names with
  | failed err => rfl
  | found f =>
    rw [hak] at hwalk
    simp only
    cases hf : fs.nodes f with
    | none => rfl
    | some node =>
      cases node with
      | dir parent es => rfl
      | symlink target => rfl
      | file data =>
        have hfile : (sealDir e d fs).nodes f = some (.file data) := by rw [nodes_sealDir, hf]
        have hagain := resolve_extends (extends_alter_file hfile (keysPayload keys)) hwalk
        simp only [locate_found hagain]
        rfl
  | absent d' name =>
    rw [hak] at hwalk
    have hagain := resolve_create hwalk (x := newInode c (sealDir e d fs) d' (.file (keysPayload keys)) 0o600)
      fun target ht => by cases ht
    simp only [locate_found hagain]
    rfl

/-! ## What is changed -/

variable {fs' : Fs} {i f : Ino} {x : Inode}

theorem sealDir_inode (e : PasswdEntry) (d i : Ino) (fs : Fs) :
    (sealDir e d fs).inode i =
      if i = d then (fs.inode i).map fun x => (x.chmod 0o700).chown e.uid e.gid else fs.inode i := by
  rw [sealDir, alter_inode, alter_inode]
  split
  · rw [Option.map_map]
    rfl
  · rfl

theorem fill_inode (e : PasswdEntry) (keys : List (List Char)) (f i : Ino) (fs : Fs) :
    (fill e keys f fs).inode i =
      if i = f then (fs.inode i).map fun x => (x.write (keysPayload keys)).chown e.uid e.gid
      else fs.inode i := by
  rw [fill, alter_inode, alter_inode]
  split
  · rw [Option.map_map]
    rfl
  · rfl

theorem addFile_inode (name : Name) (hx : fs.inode i = some x) :
    (addFile c e keys d name fs).inode i =
      some (if i = d then { x with node := x.node.add name fs.next } else x) := by
  have hnode : fs.nodes i = some x.node := by rw [Fs.nodes, hx, Option.map_some]
  rw [addFile, alter_inode, if_neg (ne_next hnode), create_inode, if_neg (ne_next hnode), hx]
  split <;> rfl

theorem nodes_addFile_next (fs : Fs) (d : Ino) (name : Name) :
    (addFile c e keys d name fs).nodes fs.next = some (.file (keysPayload keys)) := by
  rw [addFile, nodes_chown, nodes_create, if_pos rfl]
  rfl

theorem grows_seal_iff (hdir : ∃ parent es, x.node = .dir parent es) :
    x.Grows fs fs' ((x.chmod 0o700).chown e.uid e.gid) ↔ Sealed e x := by
  obtain ⟨parent, es, hdir⟩ := hdir
  have hmode : ((x.chmod 0o700).chown e.uid e.gid).mode = 0o700 := by
    simp only [Inode.chown, Inode.chmod, hdir]
  constructor
  · intro h
    have heq := h.eq (.inl rfl)
    refine ⟨?_, ?_, ?_⟩
    · rw [← heq, hmode]
    · exact congrArg Inode.uid heq
    · exact congrArg Inode.gid heq
  · intro h
    exact ⟨hmode.trans h.mode.symm, h.uid, h.gid, .inl rfl⟩

theorem grows_fill_iff {data : List Char} (hfile : x.node = .file data) :
    x.Grows fs fs' ((x.write (keysPayload keys)).chown e.uid e.gid) ↔ Filled e keys x := by
  constructor
  · intro h
    have heq := h.eq (.inr ⟨data, hfile⟩)
    have hnode : x.node = .file (keysPayload keys) := (congrArg Inode.node heq).symm
    have hwrite : x.write (keysPayload keys) = x := by rw [Inode.write, ← hnode]
    refine ⟨hnode, ?_⟩
    rw [hwrite] at heq
    exact heq
  · intro h
    have hwrite : x.write (keysPayload keys) = x := by rw [Inode.write, ← h.node]
    rw [hwrite, h.owner]
    exact .refl x

theorem node_of_isDir (hdir : fs.isDir i = true) (hx : fs.inode i = some x) :
    ∃ parent es, x.node = .dir parent es := by
  obtain ⟨parent, es, hi⟩ := isDir_iff.mp hdir
  rw [Fs.nodes, hx, Option.map_some, Option.some.injEq] at hi
  exact ⟨parent, es, hi⟩

theorem not_ownFile_of_isDir (hdir : fs.isDir i = true) : ¬ OwnFile c e fs i := by
  rintro ⟨d, _, _, data, hfile⟩
  obtain ⟨parent, es, hi⟩ := isDir_iff.mp hdir
  rw [hi] at hfile
  cases hfile

theorem not_isDir_of_file {data : List Char} (hfile : fs.nodes f = some (.file data)) :
    fs.isDir f = false := by
  rw [Fs.isDir, hfile]

theorem sealDir_node (hx : fs.inode i = some x) :
    ∃ y, (sealDir e d fs).inode i = some y ∧ y.node = x.node := by
  rw [sealDir_inode, hx]
  split
  · exact ⟨_, rfl, rfl⟩
  · exact ⟨x, rfl, rfl⟩

/-- A directory in which a file has been created has not merely got subdirectories. -/
theorem not_grows_addFile {d' : Ino} {name : Name} (hdir : fs.isDir d' = true)
    (hx : fs.inode d' = some x) {x' : Inode}
    (hx' : (addFile c e keys d' name (sealDir e d fs)).inode d' = some x') :
    ¬ x.Grows fs (addFile c e keys d' name (sealDir e d fs)) x' := by
  intro hgrows
  obtain ⟨y, hy, hnode⟩ := sealDir_node (e := e) (d := d) hx
  obtain ⟨parent, es, hes⟩ := node_of_isDir hdir hx
  rw [addFile_inode name hy, if_pos rfl, Option.some.injEq] at hx'
  have hx'node : x'.node = .dir parent ((name, fs.next) :: es) := by
    rw [← hx']
    change y.node.add name fs.next = _
    rw [hnode, hes]
    rfl
  obtain hsame | ⟨parent', es', news, hes', hnews, hall⟩ := hgrows.node
  · rw [hx'node, hes, Node.dir.injEq] at hsame
    exact List.cons_ne_self _ _ hsame.2
  · rw [hes] at hes'
    cases hes'
    rw [hx'node, Node.dir.injEq] at hnews
    cases news with
    | nil => exact absurd hnews.2 (List.cons_ne_self _ _)
    | cons n news =>
      obtain ⟨rfl, _⟩ := List.cons.inj hnews.2
      have hnext : (addFile c e keys d' name (sealDir e d fs)).nodes fs.next =
          some (.file (keysPayload keys)) := nodes_addFile_next (sealDir e d fs) d' name
      have hfile := (hall _ List.mem_cons_self).2
      rw [not_isDir_of_file hnext] at hfile
      cases hfile

/-- Sealing leaves every inode but an own directory as it is to be. -/
theorem grows_sealDir {fs' : Fs} (hdir : fs.isDir d = true)
    (hd : OwnDir c e fs d ∨ ∀ x, fs.inode d = some x → Sealed e x) {i : Ino} {x : Inode}
    (hx : fs.inode i = some x) (hown : ¬ OwnDir c e fs i) :
    ∃ x', (sealDir e d fs).inode i = some x' ∧ x.Grows fs fs' x' := by
  rw [sealDir_inode, hx]
  split
  · next hi =>
    rw [hi] at hown hx
    exact ⟨_, rfl, (grows_seal_iff (node_of_isDir hdir hx)).mpr ((hd.resolve_left hown) x hx)⟩
  · exact ⟨x, rfl, .refl x⟩

variable {passwd : Passwd} {username : List Char}

theorem Untouched.of_grown {fs' : Fs} (h : Grown fs fs') : Untouched c passwd username fs fs' :=
  fun i x hx _ => h i x hx

section Looked

variable (hlookup : lookupUser passwd username = .ok e)
include hlookup

theorem notOwn_iff :
    (∀ e', lookupUser passwd username = .ok e' → ¬ OwnDir c e' fs i ∧ ¬ OwnFile c e' fs i) ↔
      ¬ OwnDir c e fs i ∧ ¬ OwnFile c e fs i := by
  constructor
  · exact fun h => h e hlookup
  · intro h e' he'
    rw [hlookup] at he'
    cases he'
    exact h

/-- A directory that is no more than sealed. -/
theorem sealed_of_untouched (h : Untouched c passwd username fs fs') (hdir : fs.isDir d = true)
    (hinode : ∀ x, fs.inode d = some x →
      fs'.inode d = some ((x.chmod 0o700).chown e.uid e.gid)) :
    OwnDir c e fs d ∨ ∀ x, fs.inode d = some x → Sealed e x := by
  rw [or_iff_not_imp_left]
  intro hown x hx
  obtain ⟨x', hx', hgrows⟩ := h d x hx ((notOwn_iff hlookup).mpr ⟨hown, not_ownFile_of_isDir hdir⟩)
  rw [hinode x hx] at hx'
  cases hx'
  exact (grows_seal_iff (node_of_isDir hdir hx)).mp hgrows

theorem untouched_seal (hdir : fs.isDir d = true) :
    Untouched c passwd username fs (sealDir e d fs) ↔
      (OwnDir c e fs d ∨ ∀ x, fs.inode d = some x → Sealed e x) := by
  constructor
  · intro h
    refine sealed_of_untouched hlookup h hdir fun x hx => ?_
    rw [sealDir_inode, if_pos rfl, hx]
    rfl
  · intro hd i x hx hown
    have hown := (notOwn_iff hlookup).mp hown
    exact grows_sealDir hdir hd hx hown.1

theorem untouched_fill (hdir : fs.isDir d = true) {data : List Char}
    (hfile : fs.nodes f = some (.file data)) :
    Untouched c passwd username fs (fill e keys f (sealDir e d fs)) ↔
      (OwnDir c e fs d ∨ ∀ x, fs.inode d = some x → Sealed e x) ∧
        (OwnFile c e fs f ∨ ∀ x, fs.inode f = some x → Filled e keys x) := by
  have hne : d ≠ f := by
    rintro rfl
    rw [not_isDir_of_file hfile] at hdir
    cases hdir
  have hnode : ∀ {x}, fs.inode f = some x → x.node = .file data := by
    intro x hx
    rw [Fs.nodes, hx, Option.map_some, Option.some.injEq] at hfile
    exact hfile
  have hatFile : ∀ {x}, fs.inode f = some x → (fill e keys f (sealDir e d fs)).inode f =
      some ((x.write (keysPayload keys)).chown e.uid e.gid) := by
    intro x hx
    rw [fill_inode, if_pos rfl, sealDir_inode, if_neg hne.symm, hx]
    rfl
  constructor
  · intro h
    constructor
    · refine sealed_of_untouched hlookup h hdir fun x hx => ?_
      rw [fill_inode, if_neg hne, sealDir_inode, if_pos rfl, hx]
      rfl
    · rw [or_iff_not_imp_left]
      intro hown x hx
      have hnotDir : ¬ OwnDir c e fs f := by
        rintro ⟨_, hf⟩
        rw [not_isDir_of_file hfile] at hf
        cases hf
      obtain ⟨x', hx', hgrows⟩ := h f x hx ((notOwn_iff hlookup).mpr ⟨hnotDir, hown⟩)
      rw [hatFile hx] at hx'
      cases hx'
      exact (grows_fill_iff (hnode hx)).mp hgrows
  · rintro ⟨hd, hf⟩ i x hx hown
    have hown := (notOwn_iff hlookup).mp hown
    by_cases hif : i = f
    · rw [hif] at hown hx ⊢
      exact ⟨_, hatFile hx, (grows_fill_iff (hnode hx)).mpr ((hf.resolve_left hown.2) x hx)⟩
    · rw [fill_inode, if_neg hif]
      exact grows_sealDir hdir hd hx hown.1

theorem untouched_addFile (hdir : fs.isDir d = true) {d' : Ino} {name : Name}
    (hmissing : Missing fs.nodes d' name) :
    Untouched c passwd username fs (addFile c e keys d' name (sealDir e d fs)) ↔
      (OwnDir c e fs d ∨ ∀ x, fs.inode d = some x → Sealed e x) ∧ OwnDir c e fs d' := by
  have hdir' : fs.isDir d' = true := isDir_iff.mpr hmissing.1
  have hother : ∀ {i x}, fs.inode i = some x → i ≠ d' →
      (addFile c e keys d' name (sealDir e d fs)).inode i = (sealDir e d fs).inode i := by
    intro i x hx hne
    obtain ⟨y, hy, _⟩ := sealDir_node (e := e) (d := d) hx
    rw [addFile_inode name hy, if_neg hne, hy]
  constructor
  · intro h
    have hown' : OwnDir c e fs d' := by
      by_contra hown
      obtain ⟨parent, es, hes⟩ := hmissing.1
      obtain ⟨x, hx, _⟩ := Option.map_eq_some_iff.mp hes
      obtain ⟨x', hx', hgrows⟩ :=
        h d' x hx ((notOwn_iff hlookup).mpr ⟨hown, not_ownFile_of_isDir hdir'⟩)
      exact not_grows_addFile hdir' hx hx' hgrows
    refine ⟨?_, hown'⟩
    by_cases hsame : d = d'
    · rw [hsame]
      exact .inl hown'
    · refine sealed_of_untouched hlookup h hdir fun x hx => ?_
      rw [hother hx hsame, sealDir_inode, if_pos rfl, hx]
      rfl
  · rintro ⟨hd, hd'⟩ i x hx hown
    have hown := (notOwn_iff hlookup).mp hown
    have hne : i ≠ d' := by
      rintro rfl
      exact hown.1 hd'
    rw [hother hx hne]
    exact grows_sealDir hdir hd hx hown.1

/-! ## The whole call -/

theorem untouched_fillSshDir
    (hd : resolve c fs true (sshDir e.home).toBase (sshDir e.home).names = .found d)
    (hdir : fs.isDir d = true) :
    Untouched c passwd username fs (fillSshDir c e keys fs).2 ↔ Confined c e keys fs := by
  have hconfined : Confined c e keys fs ↔
      (OwnDir c e fs d ∨ ∀ x, fs.inode d = some x → Sealed e x) ∧
      match resolve c fs true (authKeysPath e.home).toBase (authKeysPath e.home).names with
      | .found f => ∀ data, fs.nodes f = some (.file data) →
        OwnFile c e fs f ∨ ∀ x, fs.inode f = some x → Filled e keys x
      | .absent d' _ => OwnDir c e fs d'
      | .failed _ => True := by
    constructor
    · exact fun h => h d hd hdir
    · intro h d' hd' _
      rw [hd] at hd'
      cases hd'
      exact h
  rw [hconfined, fillSshDir_eq hd]
  cases hak : resolve c fs true (authKeysPath e.home).toBase (authKeysPath e.home).names with
  | failed err =>
    simp only [and_true]
    exact untouched_seal hlookup hdir
  | absent d' name => exact untouched_addFile hlookup hdir (resolve_absent hak)
  | found f =>
    simp only
    cases hf : fs.nodes f with
    | none =>
      simp only [reduceCtorEq, false_imp_iff, implies_true, and_true]
      exact untouched_seal hlookup hdir
    | some node =>
      cases node with
      | file data =>
        simp only [Option.some.injEq, Node.file.injEq, forall_eq']
        exact untouched_fill hlookup hdir hf
      | dir parent es =>
        simp only [Option.some.injEq, reduceCtorEq, false_imp_iff, implies_true, and_true]
        exact untouched_seal hlookup hdir
      | symlink target =>
        simp only [Option.some.injEq, reduceCtorEq, false_imp_iff, implies_true, and_true]
        exact untouched_seal hlookup hdir

end Looked

theorem resolve_authKeysPath {i parent : Ino} (hempty : fs.nodes i = some (.dir parent []))
    (hi : resolve c fs true (sshDir e.home).toBase (sshDir e.home).names = .found i) :
    resolve c fs true (authKeysPath e.home).toBase (authKeysPath e.home).names =
      .absent i authKeysName := by
  have hplain : authKeysName ≠ dot ∧ authKeysName ≠ dotdot := by decide
  obtain ⟨hbase, hnames⟩ := (sshDir e.home).push_plain authKeysName (by decide) hplain
  have hnone : entry fs.nodes i authKeysName = none := by
    rw [entry_dir hempty, if_neg hplain.1, if_neg hplain.2]
    rfl
  rw [authKeysPath, hbase, hnames, resolve, List.reverse_cons, ← List.append_assoc]
  exact walk_snoc ⟨parent, [], hempty⟩ hnone hi

/-- In a directory that is new and empty nothing but new inodes are written. -/
theorem grown_fillSshDir {fs₁ : Fs} (hgrown : Grown fs fs₁) {i parent : Ino}
    (hnew : fs.inode i = none) (hempty : fs₁.nodes i = some (.dir parent []))
    (hi : resolve c fs₁ true (sshDir e.home).toBase (sshDir e.home).names = .found i) :
    Grown fs (fillSshDir c e keys fs₁).2 := by
  have habsent := resolve_authKeysPath hempty hi
  have hmissing : Missing (sealDir e i fs₁).nodes i authKeysName := by
    rw [nodes_sealDir]
    exact resolve_absent habsent
  have hextends : Extends fs₁.nodes (addFile c e keys i authKeysName (sealDir e i fs₁)).nodes := by
    rw [addFile, nodes_chown, ← nodes_sealDir e i fs₁]
    exact extends_create hmissing _
  rw [fillSshDir_eq hi, habsent]
  intro j x hx
  have hne : j ≠ i := by
    rintro rfl
    rw [hnew] at hx
    cases hx
  obtain ⟨x₁, hx₁, hgrows⟩ := hgrown j x hx
  have hsealed : (sealDir e i fs₁).inode j = some x₁ := by rw [sealDir_inode, if_neg hne, hx₁]
  exact ⟨x₁, by rw [addFile_inode _ hsealed, if_neg hne], hgrows.mono hextends⟩

/-- Where the path of the directory leads to none, all it can do is make new ones. -/
theorem untouched_made
    (hnone : ∀ d, resolve c fs true (sshDir e.home).toBase (sshDir e.home).names = .found d →
      fs.isDir d = false) :
    Untouched c passwd username fs
      (match mkdirAll c (sshDir e.home).toBase 0o700 (sshDir e.home).names fs with
      | (some _, fs) => (some (⟨"mkdir", (sshDir e.home).text⟩ : Failure), fs)
      | (none, fs) => fillSshDir c e keys fs).2 := by
  have hgrown := mkdirAll_grown c (sshDir e.home).toBase 0o700 (sshDir e.home).names fs
  split
  · next err fs₁ hmkdir =>
    rw [hmkdir] at hgrown
    exact .of_grown hgrown
  · next fs₁ hmkdir =>
    rw [hmkdir] at hgrown
    obtain ⟨_, hnames | ⟨d, hd, hdir⟩⟩ | ⟨i, parent, hnew, hempty, hi⟩ :=
      mkdirAll_ok (sshDir e.home).plain hmkdir
    · have hpush := (clean e.home).push_plain sshDirName (by decide) (by decide)
      rw [sshDir, hpush.2] at hnames
      cases hnames
    · rw [hnone d hd] at hdir
      cases hdir
    · exact .of_grown (grown_fillSshDir hgrown hnew hempty hi)

end Written

/-- Every inode but the account's own two is untouched if and only if the links in the home
directory lead nowhere else, or only to what is as it is to be. -/
theorem untouched_iff (c : Filesystem.Caller) (passwd : Passwd) (username : List Char)
    (keys : List (List Char)) (fs : Fs) :
    Untouched c passwd username fs (writeAuthorizedKeys c passwd username keys fs).2 ↔
      ∀ e, lookupUser passwd username = .ok e → e.home ≠ [] → Confined c e keys fs := by
  unfold writeAuthorizedKeys
  cases hlookup : lookupUser passwd username with
  | error err => exact iff_of_true (.of_grown (.refl fs)) fun e he => by cases he
  | ok e =>
    simp only [Except.ok.injEq, forall_eq']
    split
    · next hhome => exact iff_of_true (.of_grown (.refl fs)) fun hne => absurd hhome hne
    · next hhome =>
      simp only [ne_eq, hhome, not_false_eq_true, forall_const]
      by_cases hfound : ∃ d, resolve c fs true (sshDir e.home).toBase (sshDir e.home).names = .found d ∧
          fs.isDir d = true
      · obtain ⟨d, hd, hdir⟩ := hfound
        rw [mkdirAll_found _ hd hdir]
        exact untouched_fillSshDir hlookup hd hdir
      · have hnone : ∀ d, resolve c fs true (sshDir e.home).toBase (sshDir e.home).names = .found d →
            fs.isDir d = false := by
          intro d hd
          by_contra hdir
          exact hfound ⟨d, hd, by simpa using hdir⟩
        exact iff_of_true (untouched_made hnone) fun d hd hdir => absurd ⟨d, hd, hdir⟩ hfound

def agent : Filesystem.Caller := ⟨0, 0, 0o022⟩

def evePasswd : Passwd := ⟨true, ["eve:x:1000:1000::/home/eve:/bin/sh".toList], true⟩

/-- The owner of `/home/eve` has made `.ssh` a link to `/etc`. -/
def linked : Fs where
  inode
    | 0 => some ⟨.dir 0 [("home".toList, 1), ("etc".toList, 2)], 0o755, 0, 0⟩
    | 1 => some ⟨.dir 0 [("eve".toList, 3)], 0o755, 0, 0⟩
    | 2 => some ⟨.dir 0 [], 0o755, 0, 0⟩
    | 3 => some ⟨.dir 1 [(".ssh".toList, 4)], 0o750, 1000, 1000⟩
    | 4 => some ⟨.symlink "/etc".toList, 0o777, 1000, 1000⟩
    | _ => none
  next := 5
  bounded
    | _ + 5, _ => rfl

/-- `/etc` belongs to the account afterwards. -/
theorem etc_taken_over : ¬ Untouched agent evePasswd "eve".toList linked
    (writeAuthorizedKeys agent evePasswd "eve".toList [] linked).2 := by
  intro h
  have hlookup : lookupUser evePasswd "eve".toList = .ok ⟨1000, 1000, "/home/eve".toList⟩ := by rfl
  have hother : ∀ e, lookupUser evePasswd "eve".toList = .ok e →
      ¬ OwnDir agent e linked 2 ∧ ¬ OwnFile agent e linked 2 := by
    intro e he
    rw [hlookup] at he
    cases he
    exact ⟨fun hdir => absurd hdir.1 (by decide +kernel), not_ownFile_of_isDir (by decide)⟩
  have huid : ((writeAuthorizedKeys agent evePasswd "eve".toList [] linked).2.inode 2).map Inode.uid =
      some 1000 := by decide +kernel
  obtain ⟨x', hx', hgrows⟩ := h 2 ⟨.dir 0 [], 0o755, 0, 0⟩ rfl hother
  rw [hx', Option.map_some, hgrows.uid] at huid
  cases huid

end Keywarden.AuthorizedKeys
