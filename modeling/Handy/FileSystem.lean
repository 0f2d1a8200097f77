import Handy.Http.Text
import Handy.Lib.DirTree

/-!
# The file system

The calls of the operating system on files, over a directory tree with hard and symbolic links and
what the files hold. Paths are byte strings, so one entry has many spellings. `open` follows a
symbolic link at the end of its path and may create the file that the link stands for; `unlink` and
`rename` act on the link itself.

Regular files keep what is written to them, and devices do not.

How a call comes out is a parameter, so every combination of failures and short writes is there: the
system may refuse a call, for whatever reason, and one that it permits still fails where the tree
demands it. A call that fails sets `errno`. Only files and links are renamed here, never
directories.
-/

set_option autoImplicit false

namespace Handy

/-- A value of `errno` after a call that failed. -/
abbrev Errno := {code : ℤ // code ≠ 0}

def ENOENT : Errno := ⟨2, by decide⟩
def ENOTDIR : Errno := ⟨20, by decide⟩
def EISDIR : Errno := ⟨21, by decide⟩
def ELOOP : Errno := ⟨40, by decide⟩

/-- The most bytes that one `write` takes. -/
def writeMax : ℕ := 0x7ffff000

theorem writeMax_lt : writeMax < 2 ^ 31 := by decide

/-! ## Paths and entries -/

/-- A path as it is spelt: the names are between slashes, and a slash at the end stands for the
directory itself. -/
def pathOf (path : Bytes) : DirTree.Path Bytes :=
  { absolute := path.head? = some 47
    names := (path.splitOn 47).filter (· ≠ []) ++ if path.getLast? = some 47 then [ascii "."] else [] }

/-- The last name of a path that something is added to. -/
theorem splitOn_append_last (suffix : Bytes) (plain : 47 ∉ suffix) (path : Bytes) :
    ∃ front name, path.splitOn 47 = front ++ [name] ∧
      (path ++ suffix).splitOn 47 = front ++ [name ++ suffix] ∧
      (name = [] → path = [] ∨ path.getLast? = some 47) := by
  induction path with
  | nil =>
      refine ⟨[], [], rfl, ?_, fun _ => .inl rfl⟩
      rw [List.nil_append, List.splitOn_eq_singleton plain]
      rfl
  | cons c path ih =>
      obtain ⟨front, name, split, split', empty⟩ := ih
      have ends : name = [] → front ≠ [] → (c :: path).getLast? = some 47 := by
        intro nothing more
        obtain rfl | last := empty nothing
        · have single : front ++ [name] = [[]] := split.symm
          exact absurd (List.append_eq_singleton_iff.mp single) (by simp [more])
        · rw [List.getLast?_cons, last]
          rfl
      rw [List.cons_append, List.splitOn_cons_eq_if_modifyHead, List.splitOn_cons_eq_if_modifyHead,
        split, split']
      by_cases slash : c = 47
      · refine ⟨[] :: front, name, by simp [slash], by simp [slash], fun nothing => .inr ?_⟩
        by_cases more : front = []
        · obtain rfl | last := empty nothing
          · simp [slash]
          · rw [List.getLast?_cons, last]
            rfl
        · exact ends nothing more
      · have other : ¬ (c == 47) = true := by simpa using slash
        rw [if_neg other, if_neg other]
        cases front with
        | nil => exact ⟨[], c :: name, rfl, rfl, fun nothing => absurd nothing (List.cons_ne_nil _ _)⟩
        | cons first front =>
            exact ⟨(c :: first) :: front, name, rfl, rfl,
              fun nothing => .inr (ends nothing (List.cons_ne_nil _ _))⟩

/-- A path that something is added to has another last name. -/
theorem pathOf_append {path suffix : Bytes} (nonempty : path ≠ []) (open_ : path.getLast? ≠ some 47)
    (plain : 47 ∉ suffix) (more : suffix ≠ []) :
    ∃ absolute front name, pathOf path = ⟨absolute, front ++ [name]⟩ ∧
      pathOf (path ++ suffix) = ⟨absolute, front ++ [name ++ suffix]⟩ := by
  obtain ⟨front, name, split, split', empty⟩ := splitOn_append_last suffix plain path
  have named : name ≠ [] := fun nothing => (empty nothing).elim nonempty open_
  have head : (path ++ suffix).head? = path.head? := List.head?_append_of_ne_nil _ nonempty
  have last : (path ++ suffix).getLast? ≠ some 47 := by
    rw [List.getLast?_append_of_ne_nil _ more]
    exact fun slash => plain (List.mem_of_getLast? slash)
  have filtered : ∀ name : Bytes, name ≠ [] →
      (front ++ [name]).filter (· ≠ []) = front.filter (· ≠ []) ++ [name] := by
    intro name named
    simp [named]
  refine ⟨decide (path.head? = some 47), front.filter (· ≠ []), name, ?_, ?_⟩
  · rw [pathOf, split, filtered name named, if_neg open_, List.append_nil]
  · rw [pathOf, split', filtered _ (by simp [named]), head, if_neg last, List.append_nil]

namespace DirTree

/-- The value of `errno` for a path that leads nowhere. -/
def LookupError.errno : LookupError → Errno
  | .noEntry => ENOENT
  | .notDirectory => ENOTDIR
  | .tooManyLinks => ELOOP

variable (tree : DirTree Bytes)

/-- The entry of the file that `open` opens for writing, or creates. -/
def opens (path : Bytes) : Except Errno (Entry Bytes) :=
  match tree.find true (pathOf path) with
  | .error error => .error error.errno
  | .ok entry =>
      match tree.entries entry with
      | some (.directory _) => .error EISDIR
      | _ => .ok entry

/-- The tree after `unlink`, if it does not return -1. -/
def unlink (outcome : Option Errno) (path : Bytes) : Except Errno (DirTree Bytes) :=
  match outcome, tree.find false (pathOf path) with
  | some error, _ => .error error
  | none, .error error => .error error.errno
  | none, .ok entry =>
      match tree.entries entry with
      | none => .error ENOENT
      | some (.directory _) => .error EISDIR
      | some _ => .ok (tree.set entry none)

/-- The tree after `rename`, if it does not return -1. -/
def rename (outcome : Option Errno) (src target : Bytes) : Except Errno (DirTree Bytes) :=
  match outcome, tree.find false (pathOf src), tree.find false (pathOf target) with
  | some error, _, _ => .error error
  | none, .error error, _ => .error error.errno
  | none, _, .error error => .error error.errno
  | none, .ok old, .ok new =>
      match tree.entries old, tree.entries new with
      | none, _ => .error ENOENT
      | some (.directory _), _ => .error EISDIR
      | some _, some (.directory _) => .error EISDIR
      | some node, _ => .ok (tree.move old new node)

variable {tree} {tree' : DirTree Bytes} {outcome : Option Errno} {path src target : Bytes}

/-- What is opened is not a directory, and not a link either. -/
theorem opens_plain {entry : Entry Bytes} (opened : tree.opens path = .ok entry) :
    tree.find true (pathOf path) = .ok entry ∧ Node.leads (tree.entries entry) = none := by
  unfold opens at opened
  split at opened
  · cases opened
  · rename_i found here
    split at opened
    · cases opened
    · rename_i plain
      cases opened
      refine ⟨here, ?_⟩
      rcases node : tree.entries entry with _ | _ | _ | _ | _
      · rfl
      · rfl
      · rfl
      · exact absurd node (plain _)
      · exact absurd node (walk_ne_link here _ _)

theorem unlink_ok (removes : tree.unlink outcome path = .ok tree') :
    outcome = none ∧ ∃ entry, tree.find false (pathOf path) = .ok entry ∧
      tree' = tree.set entry none := by
  unfold unlink at removes
  split at removes
  · cases removes
  · cases removes
  · rename_i entry found
    split at removes <;> cases removes
    exact ⟨rfl, entry, found, rfl⟩

theorem rename_ok (renames : tree.rename outcome src target = .ok tree') :
    outcome = none ∧ ∃ old new node, tree.find false (pathOf src) = .ok old ∧
      tree.find false (pathOf target) = .ok new ∧ tree.entries old = some node ∧
      tree' = tree.move old new node := by
  unfold rename at renames
  split at renames
  · cases renames
  · cases renames
  · cases renames
  · rename_i old new found found'
    split at renames <;> cases renames
    refine ⟨rfl, old, new, _, found, found', ?_, rfl⟩
    assumption

/-- The files of a tree in which an entry was removed. -/
theorem file_of_unlink (removes : tree.unlink outcome path = .ok tree') {entry : Entry Bytes}
    {file : ℕ} (there : tree'.entries entry = some (.file file)) :
    ∃ other, tree.entries other = some (.file file) := by
  obtain ⟨-, gone, -, rfl⟩ := unlink_ok removes
  by_cases here : entry = gone
  · rw [here, entries_set_self] at there
    cases there
  · rw [entries_set_of_ne here] at there
    exact ⟨entry, there⟩

/-- The files of a tree in which an entry was renamed. -/
theorem file_of_rename (renames : tree.rename outcome src target = .ok tree') {entry : Entry Bytes}
    {file : ℕ} (there : tree'.entries entry = some (.file file)) :
    ∃ other, tree.entries other = some (.file file) := by
  obtain ⟨-, old, new, node, -, -, moved, rfl⟩ := rename_ok renames
  unfold move at there
  split_ifs at there
  · exact ⟨entry, there⟩
  · by_cases here : entry = new
    · rw [here, entries_set_self] at there
      cases there
      exact ⟨old, moved⟩
    · rw [entries_set_of_ne here] at there
      by_cases left : entry = old
      · rw [left, entries_set_self] at there
        cases there
      · rw [entries_set_of_ne left] at there
        exact ⟨entry, there⟩

end DirTree

open DirTree

/-! ## The calls -/

/-- A directory tree, what the files hold, the next unused file and `errno`. -/
structure FileSystem extends DirTree Bytes where
  contents : ℕ → Bytes
  next : ℕ
  errno : ℤ
  entries_lt : ∀ {entry file}, entries entry = some (.file file) → file < next

/-- What can be seen under a path. -/
inductive Seen where
  | absent
  | file (bytes : Bytes)
  | device (number : ℕ)
  | directory (number : ℕ)
  deriving DecidableEq, Repr

namespace FileSystem

/-- What a node of the tree is seen as. -/
def see (contents : ℕ → Bytes) : Option (Node Bytes) → Seen
  | some (.file number) => .file (contents number)
  | some (.device number) => .device number
  | some (.directory number) => .directory number
  | _ => .absent

variable (fs : FileSystem)

/-- What can be seen under a path, with links followed. -/
def look (path : Bytes) : Seen := see fs.contents (fs.at? (pathOf path))

/-- A call fails. -/
def fail (error : Errno) : FileSystem := { fs with errno := error }

/-- The file of an entry: if there is none, that which is made. What is written to a device goes to
a file without an entry. -/
def fileAt (place : Entry Bytes) : ℕ :=
  match fs.entries place with
  | some (.file file) => file
  | _ => fs.next

/-- The tree in which the file of an entry is there. -/
def made (place : Entry Bytes) : DirTree Bytes :=
  match fs.entries place with
  | some (.device _) => fs.toDirTree
  | _ => fs.toDirTree.set place (some (.file (fs.fileAt place)))

theorem fileAt_le (place : Entry Bytes) : fs.fileAt place ≤ fs.next := by
  unfold fileAt
  split
  · rename_i there
    exact (fs.entries_lt there).le
  · exact le_rfl

theorem made_lt (place : Entry Bytes) {entry : Entry Bytes} {file : ℕ}
    (there : (fs.made place).entries entry = some (.file file)) : file < fs.next + 1 := by
  unfold made at there
  split at there
  · exact (fs.entries_lt there).trans (Nat.lt_succ_self _)
  · by_cases here : entry = place
    · rw [here, entries_set_self] at there
      cases there
      exact Nat.lt_succ_of_le (fs.fileAt_le place)
    · rw [entries_set_of_ne here] at there
      exact (fs.entries_lt there).trans (Nat.lt_succ_self _)

/-- The file of an entry, made if there is none, holds some bytes. -/
def put (place : Entry Bytes) (bytes : Bytes) : FileSystem :=
  { fs with
    toDirTree := fs.made place
    contents := Function.update fs.contents (fs.fileAt place) bytes
    next := fs.next + 1
    entries_lt := fs.made_lt place }

/-- `open` with `O_WRONLY | O_CREAT | O_TRUNC`: the file, if it does not return -1. -/
def openTruncated (outcome : Option Errno) (path : Bytes) : Option ℕ × FileSystem :=
  match outcome, fs.opens path with
  | some error, _ => (none, fs.fail error)
  | none, .error error => (none, fs.fail error)
  | none, .ok entry => (some (fs.fileAt entry), fs.put entry [])

/-- `open` with `O_APPEND | O_CREAT | O_WRONLY`: the file, if it does not return -1. -/
def openAppend (outcome : Option Errno) (path : Bytes) : Option ℕ × FileSystem :=
  match outcome, fs.opens path with
  | some error, _ => (none, fs.fail error)
  | none, .error error => (none, fs.fail error)
  | none, .ok entry =>
      match fs.entries entry with
      | some (.file file) => (some file, fs)
      | _ => (some fs.next, fs.put entry [])

/-- `write` at the start of a file. -/
def write (outcome : Except Errno ℕ) (fd : ℕ) (data : Bytes) : ℤ × FileSystem :=
  match outcome with
  | .error error => (-1, fs.fail error)
  | .ok count =>
      let taken := min count (min data.length writeMax)
      (taken, { fs with
        contents := Function.update fs.contents fd
          (data.take taken ++ (fs.contents fd).drop taken) })

/-- `write` to a file that was opened with `O_APPEND`. -/
def append (outcome : Except Errno ℕ) (fd : ℕ) (data : Bytes) : FileSystem :=
  match outcome with
  | .error error => fs.fail error
  | .ok count => { fs with
      contents := Function.update fs.contents fd (fs.contents fd ++ data.take count) }

theorem unlink_lt {outcome : Option Errno} {path : Bytes} {tree : DirTree Bytes}
    (removes : fs.toDirTree.unlink outcome path = .ok tree) {entry : Entry Bytes} {file : ℕ}
    (there : tree.entries entry = some (.file file)) : file < fs.next := by
  obtain ⟨other, before⟩ := file_of_unlink removes there
  exact fs.entries_lt before

/-- `unlink`. -/
def unlink (outcome : Option Errno) (path : Bytes) : ℤ × FileSystem :=
  match removes : fs.toDirTree.unlink outcome path with
  | .error error => (-1, fs.fail error)
  | .ok tree => (0, { fs with toDirTree := tree, entries_lt := fs.unlink_lt removes })

theorem rename_lt {outcome : Option Errno} {src target : Bytes} {tree : DirTree Bytes}
    (renames : fs.toDirTree.rename outcome src target = .ok tree) {entry : Entry Bytes} {file : ℕ}
    (there : tree.entries entry = some (.file file)) : file < fs.next := by
  obtain ⟨other, before⟩ := file_of_rename renames there
  exact fs.entries_lt before

/-- `rename`, which does nothing if both paths are entries of one file. -/
def rename (outcome : Option Errno) (src target : Bytes) : ℤ × FileSystem :=
  match renames : fs.toDirTree.rename outcome src target with
  | .error error => (-1, fs.fail error)
  | .ok tree => (0, { fs with toDirTree := tree, entries_lt := fs.rename_lt renames })

end FileSystem

/-! ## What each call leaves -/

namespace FileSystem

variable (fs : FileSystem)

@[simp] theorem look_fail (error : Errno) (path : Bytes) : (fs.fail error).look path = fs.look path :=
  rfl

/-- A path leads to the file of an entry, which is made if there is none. -/
def Shows (place : Entry Bytes) (path : Bytes) : Prop :=
  (fs.made place).at? (pathOf path) = some (.file (fs.fileAt place))

theorem fileAt_leads (place : Entry Bytes) :
    Node.leads (some (.file (fs.fileAt place)) : Option (Node Bytes)) = none := rfl

theorem look_put_of_shows {place : Entry Bytes} {path : Bytes} (shows_ : fs.Shows place path)
    (bytes : Bytes) : (fs.put place bytes).look path = .file bytes := by
  show see (Function.update fs.contents (fs.fileAt place) bytes) ((fs.made place).at? (pathOf path)) =
    _
  rw [shows_]
  exact congrArg Seen.file (Function.update_self ..)

/-- A write does not show under any path that does not lead to the file. -/
theorem look_put_of_not_shows {place : Entry Bytes} {path : Bytes}
    (plain : Node.leads (fs.entries place) = none) (apart : ¬ fs.Shows place path) (bytes : Bytes) :
    (fs.put place bytes).look path = fs.look path := by
  have kept : (fs.made place).at? (pathOf path) = fs.at? (pathOf path) := by
    unfold Shows made at apart
    unfold made
    split at apart
    · rfl
    · have after := at?_set (plain.trans (fs.fileAt_leads place).symm) (pathOf path)
      split_ifs at after with here
      · exact absurd after apart
      · exact after
  show see (Function.update fs.contents (fs.fileAt place) bytes) ((fs.made place).at? (pathOf path)) =
    see fs.contents (fs.at? (pathOf path))
  rw [Shows, kept] at apart
  rw [kept]
  rcases node : fs.at? (pathOf path) with _ | other | number | number | _
  · rfl
  · refine congrArg Seen.file (Function.update_of_ne ?_ ..)
    rintro rfl
    exact apart node
  · rfl
  · rfl
  · rfl

/-- A write at the start of an emptied file. -/
theorem write_put (count : ℕ) (place : Entry Bytes) (data : Bytes) :
    (fs.put place []).write (.ok count) (fs.fileAt place) data =
      (((min count (min data.length writeMax) : ℕ) : ℤ),
        fs.put place (data.take (min count writeMax))) := by
  have taken : data.take (min count (min data.length writeMax)) = data.take (min count writeMax) := by
    exact List.take_eq_take_iff.mpr (by omega)
  simp [write, put, taken]

theorem unlink_error {outcome : Option Errno} {path : Bytes} {error : Errno}
    (fails : fs.toDirTree.unlink outcome path = .error error) :
    fs.unlink outcome path = (-1, fs.fail error) := by
  unfold unlink
  split
  · rename_i other fails'
    rw [fails] at fails'
    cases fails'
    rfl
  · rename_i removes
    rw [fails] at removes
    cases removes

theorem unlink_removes {outcome : Option Errno} {path : Bytes} {tree : DirTree Bytes}
    (removes : fs.toDirTree.unlink outcome path = .ok tree) :
    ∃ fs', fs.unlink outcome path = (0, fs') ∧ fs'.toDirTree = tree ∧ fs'.contents = fs.contents := by
  unfold unlink
  split
  · rename_i fails
    rw [removes] at fails
    cases fails
  · rename_i removes'
    rw [removes] at removes'
    cases removes'
    exact ⟨_, rfl, rfl, rfl⟩

theorem rename_error {outcome : Option Errno} {src target : Bytes} {error : Errno}
    (fails : fs.toDirTree.rename outcome src target = .error error) :
    fs.rename outcome src target = (-1, fs.fail error) := by
  unfold rename
  split
  · rename_i other fails'
    rw [fails] at fails'
    cases fails'
    rfl
  · rename_i renames
    rw [fails] at renames
    cases renames

theorem rename_renames {outcome : Option Errno} {src target : Bytes} {tree : DirTree Bytes}
    (renames : fs.toDirTree.rename outcome src target = .ok tree) :
    ∃ fs', fs.rename outcome src target = (0, fs') ∧ fs'.toDirTree = tree ∧
      fs'.contents = fs.contents ∧ fs'.next = fs.next := by
  unfold rename
  split
  · rename_i fails
    rw [renames] at fails
    cases fails
  · rename_i renames'
    rw [renames] at renames'
    cases renames'
    exact ⟨_, rfl, rfl, rfl, rfl⟩

/-- A root directory with some entries, and a file 0 that holds `old`. -/
def flat (entries : Bytes → Option (Node Bytes)) (only : ∀ name file,
    entries name = some (.file file) → file = 0) : FileSystem where
  entries := fun entry =>
    if entry.1 ≠ 0 then none
    else if entry.2 = ascii "." ∨ entry.2 = ascii ".." then some (.directory 0)
    else entries entry.2
  root := 0
  cwd := 0
  contents := fun _ => ascii "old"
  next := 1
  errno := 0
  entries_lt := by
    intro entry file found
    split_ifs at found
    · cases found
    · rw [only _ _ found]
      exact Nat.zero_lt_one

/-- The file 0 under the name `a`. -/
def oneFile : FileSystem :=
  flat (fun name => if name = ascii "a" then some (.file 0) else none) (by
    intro name file found
    split_ifs at found
    cases found
    rfl)

end FileSystem

end Handy
