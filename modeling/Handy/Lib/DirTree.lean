import Mathlib.Logic.Function.Basic
import Mathlib.Data.List.Basic

/-!
# Directory trees

Directories are numbered, and an entry is a name in a directory. What stands at an entry is a file,
a device, a directory or a symbolic link. Two entries may be one file, and many paths lead to one
entry: through the entries that a directory has for itself and for the one above it, through
symbolic links, and from the root as well as from the working directory.

`find` looks a path up. A symbolic link before the last name is always followed, and one at the
last name only on request, so that a path leads to the link itself or to what it stands for; after
`maxSymlinks` links it gives up. What `find` reaches depends only on the directories and links of
the tree, so files come and go without an effect on other paths (`Alike.find_iff`); an entry that is
taken away is not reached any more, and neither is anything behind it (`at?_removed`).
-/

set_option autoImplicit false

namespace Handy

namespace DirTree

/-- A path from the root or from the working directory. -/
structure Path (κ : Type) where
  absolute : Bool
  names : List κ
  deriving DecidableEq, Repr

/-- What an entry refers to. A device stands for all that can be written to and keeps nothing. -/
inductive Node (κ : Type) where
  | file (number : ℕ)
  | device (number : ℕ)
  | directory (number : ℕ)
  | link (number : ℕ) (target : Path κ)
  deriving DecidableEq, Repr

/-- A name in a directory. -/
abbrev Entry (κ : Type) := ℕ × κ

/-- Why a path leads nowhere. -/
inductive LookupError where
  | noEntry | notDirectory | tooManyLinks
  deriving DecidableEq, Repr

/-- A part of a walk along a path: it fails, it ends at an entry, or a symbolic link is met and the
walk goes on with other names from a directory. -/
inductive Stretch (κ : Type) where
  | fails (error : LookupError)
  | ends (entry : Entry κ)
  | goes (directory : ℕ) (names : List κ)

end DirTree

open DirTree

/-- The entries, the root and the working directory. -/
structure DirTree (κ : Type) where
  entries : Entry κ → Option (Node κ)
  root : ℕ
  cwd : ℕ

namespace DirTree

variable {κ : Type}

section Lookup

variable (tree : DirTree κ)

/-- The directory that a path starts from, if it is met in a directory. -/
def start (directory : ℕ) (path : Path κ) : ℕ := if path.absolute then tree.root else directory

/-- The walk along some names from a directory, up to the first symbolic link that is followed. -/
def stretch (follow : Bool) : ℕ → List κ → Stretch κ
  | _, [] => .fails .noEntry
  | directory, [name] =>
      match follow, tree.entries (directory, name) with
      | true, some (.link _ target) => .goes (tree.start directory target) target.names
      | _, _ => .ends (directory, name)
  | directory, name :: next :: rest =>
      match tree.entries (directory, name) with
      | none => .fails .noEntry
      | some (.directory inner) => stretch follow inner (next :: rest)
      | some (.link _ target) => .goes (tree.start directory target) (target.names ++ next :: rest)
      | some _ => .fails .notDirectory

/-- The walk along some names, with a number of symbolic links that may be followed. -/
def walk (follow : Bool) : ℕ → ℕ → List κ → Except LookupError (Entry κ)
  | 0, directory, names =>
      match tree.stretch follow directory names with
      | .fails error => .error error
      | .ends entry => .ok entry
      | .goes _ _ => .error .tooManyLinks
  | links + 1, directory, names =>
      match tree.stretch follow directory names with
      | .fails error => .error error
      | .ends entry => .ok entry
      | .goes directory names => walk follow links directory names

/-- How many symbolic links are followed. -/
def maxSymlinks : ℕ := 40

/-- The entry that a path leads to, with a symbolic link at its end followed or not. -/
def find (follow : Bool) (path : Path κ) : Except LookupError (Entry κ) :=
  tree.walk follow maxSymlinks (tree.start tree.cwd path) path.names

/-- What a path leads to when links are followed. -/
def at? (path : Path κ) : Option (Node κ) :=
  match tree.find true path with
  | .error _ => none
  | .ok entry => tree.entries entry

end Lookup

section Changes

variable [DecidableEq κ] (tree : DirTree κ)

/-- An entry is made, changed or taken away. -/
def set (entry : Entry κ) (node : Option (Node κ)) : DirTree κ :=
  { tree with entries := Function.update tree.entries entry node }

/-- An entry that is moved takes the place of another; two entries of one node stay. -/
def move (src target : Entry κ) (node : Node κ) : DirTree κ :=
  if tree.entries target = some node then tree else (tree.set src none).set target (some node)

end Changes

/-! ## What a walk depends on -/

/-- What a walk goes on with from an entry. -/
def Node.leads : Option (Node κ) → Option (ℕ ⊕ Path κ)
  | some (.directory number) => some (.inl number)
  | some (.link _ target) => some (.inr target)
  | _ => none

/-- Two trees have the same directories and links. -/
structure Alike (tree other : DirTree κ) : Prop where
  root : tree.root = other.root
  cwd : tree.cwd = other.cwd
  leads : ∀ entry, Node.leads (tree.entries entry) = Node.leads (other.entries entry)

namespace Alike

variable {tree other : DirTree κ} {follow : Bool}

theorem symm (alike : Alike tree other) : Alike other tree :=
  ⟨alike.root.symm, alike.cwd.symm, fun entry => (alike.leads entry).symm⟩

theorem start_eq (alike : Alike tree other) (directory : ℕ) (path : Path κ) :
    tree.start directory path = other.start directory path := by
  rw [start, start, alike.root]

/-- One part of a walk is the same, but for the error. -/
theorem stretch_eq (alike : Alike tree other) (directory : ℕ) (names : List κ) :
    tree.stretch follow directory names = other.stretch follow directory names ∨
      (∃ error, tree.stretch follow directory names = .fails error) ∧
        ∃ error, other.stretch follow directory names = .fails error := by
  induction names generalizing directory with
  | nil => exact .inl rfl
  | cons name rest ih =>
      have leads := alike.leads (directory, name)
      cases rest with
      | nil =>
          left
          rcases here : tree.entries (directory, name) with _ | _ | _ | _ | _ <;>
            rcases there : other.entries (directory, name) with _ | _ | _ | _ | _ <;>
            cases follow <;> simp_all [Node.leads, stretch, alike.start_eq]
      | cons next rest =>
          rcases here : tree.entries (directory, name) with _ | _ | _ | inner | _ <;>
            rcases there : other.entries (directory, name) with _ | _ | _ | inner' | _ <;>
            simp_all [Node.leads, stretch, alike.start_eq]

theorem walk_ok (alike : Alike tree other) {links directory : ℕ} {names : List κ} {entry : Entry κ}
    (found : tree.walk follow links directory names = .ok entry) :
    other.walk follow links directory names = .ok entry := by
  induction links generalizing directory names with
  | zero =>
      rw [walk] at found ⊢
      obtain same | ⟨⟨error, fails⟩, -⟩ := @stretch_eq κ tree other follow alike directory names
      · rw [← same]
        exact found
      · rw [fails] at found
        cases found
  | succ links ih =>
      rw [walk] at found ⊢
      obtain same | ⟨⟨error, fails⟩, -⟩ := @stretch_eq κ tree other follow alike directory names
      · rw [← same]
        cases step : tree.stretch follow directory names with
        | fails error => rw [step] at found; exact found
        | ends last => rw [step] at found; exact found
        | goes directory names => rw [step] at found; exact ih found
      · rw [fails] at found
        cases found

/-- **Trees with the same directories and links are walked alike.** -/
theorem find_iff (alike : Alike tree other) (path : Path κ) (entry : Entry κ) :
    tree.find follow path = .ok entry ↔ other.find follow path = .ok entry := by
  unfold find
  rw [alike.start_eq, alike.cwd]
  exact ⟨alike.walk_ok, alike.symm.walk_ok⟩

end Alike

section Changed

variable [DecidableEq κ] {tree : DirTree κ} {entry : Entry κ}

@[simp] theorem entries_set_self (tree : DirTree κ) (entry : Entry κ) (node : Option (Node κ)) :
    (tree.set entry node).entries entry = node :=
  Function.update_self ..

theorem entries_set_of_ne {other : Entry κ} (differs : other ≠ entry) (tree : DirTree κ)
    (node : Option (Node κ)) : (tree.set entry node).entries other = tree.entries other :=
  Function.update_of_ne differs ..

/-- A change that makes or takes away no directory and no link. -/
theorem alike_set {node : Option (Node κ)}
    (same : Node.leads (tree.entries entry) = Node.leads node) : Alike tree (tree.set entry node) where
  root := rfl
  cwd := rfl
  leads := by
    intro other
    by_cases here : other = entry
    · rw [here, entries_set_self, same]
    · rw [entries_set_of_ne here]

/-- What paths lead to after such a change. -/
theorem at?_set {node : Option (Node κ)}
    (same : Node.leads (tree.entries entry) = Node.leads node) (path : Path κ) :
    (tree.set entry node).at? path =
      if tree.find true path = .ok entry then node else tree.at? path := by
  have alike := alike_set same
  have finds (other : Entry κ) : (tree.set entry node).find true path = .ok other ↔
      tree.find true path = .ok other := (alike.find_iff path other).symm
  unfold at?
  cases found : tree.find true path with
  | error error =>
      cases found' : (tree.set entry node).find true path with
      | error _ => simp
      | ok other => rw [finds, found] at found'; cases found'
  | ok other =>
      rw [(finds other).mpr found]
      by_cases here : other = entry
      · simp [here]
      · simp [here, entries_set_of_ne here]

/-! ## What is taken away -/

/-- A part of a walk in a tree without an entry: the walk fails, or it ends at that entry, or it is
the part of the walk in the tree. -/
theorem stretch_removed (directory : ℕ) (names : List κ) :
    (∃ error, (tree.set entry none).stretch true directory names = .fails error) ∨
      (tree.set entry none).stretch true directory names = .ends entry ∨
      (∃ other, other ≠ entry ∧ tree.stretch false directory names = .ends other) ∨
      (tree.set entry none).stretch true directory names = tree.stretch false directory names := by
  induction names generalizing directory with
  | nil => exact .inl ⟨_, rfl⟩
  | cons name rest ih =>
      by_cases here : (directory, name) = entry
      · subst here
        cases rest with
        | nil => exact .inr (.inl (by simp [stretch]))
        | cons next rest => exact .inl ⟨.noEntry, by simp [stretch]⟩
      · have unchanged := entries_set_of_ne here tree none
        cases rest with
        | nil => exact .inr (.inr (.inl ⟨(directory, name), here, by simp [stretch]⟩))
        | cons next rest =>
            rw [stretch, stretch, unchanged]
            rcases tree.entries (directory, name) with _ | number | number | inner | linked
            · exact .inl ⟨_, rfl⟩
            · exact .inl ⟨_, rfl⟩
            · exact .inl ⟨_, rfl⟩
            · exact ih inner
            · exact .inr (.inr (.inr rfl))

theorem walk_removed {links directory : ℕ} {names : List κ}
    (found : tree.walk false links directory names = .ok entry) :
    (∃ error, (tree.set entry none).walk true links directory names = .error error) ∨
      (tree.set entry none).walk true links directory names = .ok entry := by
  induction links generalizing directory names with
  | zero =>
      rw [walk] at found ⊢
      obtain ⟨error, fails⟩ | ends | ⟨other, differs, ends⟩ | same :=
        @stretch_removed κ _ tree entry directory names
      · exact .inl ⟨error, by rw [fails]⟩
      · exact .inr (by rw [ends])
      · rw [ends] at found
        exact absurd (Except.ok.inj found) differs
      · rw [same]
        exact .inr found
  | succ links ih =>
      rw [walk] at found ⊢
      obtain ⟨error, fails⟩ | ends | ⟨other, differs, ends⟩ | same :=
        @stretch_removed κ _ tree entry directory names
      · exact .inl ⟨error, by rw [fails]⟩
      · exact .inr (by rw [ends])
      · rw [ends] at found
        exact absurd (Except.ok.inj found) differs
      · rw [same]
        cases step : tree.stretch false directory names with
        | fails error => rw [step] at found; exact .inr found
        | ends last => rw [step] at found; exact .inr found
        | goes directory names => rw [step] at found; exact ih found

theorem find_removed {path : Path κ} (found : tree.find false path = .ok entry) :
    (∃ error, (tree.set entry none).find true path = .error error) ∨
      (tree.set entry none).find true path = .ok entry :=
  walk_removed found

/-- **A path whose entry is taken away leads nowhere.** -/
theorem at?_removed {path : Path κ} (found : tree.find false path = .ok entry) :
    (tree.set entry none).at? path = none := by
  unfold at?
  obtain ⟨error, fails⟩ | ends := find_removed found
  · rw [fails]
  · rw [ends]
    exact entries_set_self ..

end Changed

/-! ## The last name -/

section Last

variable {tree : DirTree κ} {entry : Entry κ}

/-- A walk that follows links does not end at one. -/
theorem walk_ne_link {links directory : ℕ} {names : List κ}
    (found : tree.walk true links directory names = .ok entry) (number : ℕ) (target : Path κ) :
    tree.entries entry ≠ some (.link number target) := by
  have stretched : ∀ (names : List κ) (directory : ℕ),
      tree.stretch true directory names = .ends entry →
        tree.entries entry ≠ some (.link number target) := by
    intro names
    induction names with
    | nil => intro directory ends; cases ends
    | cons name rest ih =>
        intro directory ends linked
        cases rest with
        | nil =>
            unfold stretch at ends
            split at ends
            · cases ends
            · cases ends
              rename_i other
              exact other number target rfl linked
        | cons next rest =>
            rw [stretch] at ends
            split at ends
            · cases ends
            · exact ih _ ends linked
            · cases ends
            · cases ends
  induction links generalizing directory names with
  | zero =>
      rw [walk] at found
      cases step : tree.stretch true directory names with
      | fails error => rw [step] at found; cases found
      | ends last => rw [step] at found; cases found; exact stretched names directory step
      | goes directory names => rw [step] at found; cases found
  | succ links ih =>
      rw [walk] at found
      cases step : tree.stretch true directory names with
      | fails error => rw [step] at found; cases found
      | ends last => rw [step] at found; cases found; exact stretched names directory step
      | goes directory names => rw [step] at found; exact ih found

/-- A part of a walk that does not follow a link at its end, against one that does. -/
theorem stretch_follow (directory : ℕ) (names : List κ) :
    tree.stretch true directory names = tree.stretch false directory names ∨
      ∃ other number target, tree.stretch false directory names = .ends other ∧
        tree.entries other = some (.link number target) := by
  induction names generalizing directory with
  | nil => exact .inl rfl
  | cons name rest ih =>
      cases rest with
      | nil =>
          cases here : tree.entries (directory, name) with
          | none => exact .inl (by simp [stretch, here])
          | some found =>
              cases found with
              | file number => exact .inl (by simp [stretch, here])
              | device number => exact .inl (by simp [stretch, here])
              | directory inner => exact .inl (by simp [stretch, here])
              | link number target =>
                  exact .inr ⟨(directory, name), number, target, by simp [stretch], here⟩
      | cons next rest =>
          rw [stretch, stretch]
          rcases tree.entries (directory, name) with _ | number | number | inner | linked
          · exact .inl rfl
          · exact .inl rfl
          · exact .inl rfl
          · exact ih inner
          · exact .inl rfl

/-- An entry that is not a link is found whether links are followed or not. -/
theorem walk_follow {links directory : ℕ} {names : List κ}
    (found : tree.walk false links directory names = .ok entry)
    (plain : ∀ number target, tree.entries entry ≠ some (.link number target)) :
    tree.walk true links directory names = .ok entry := by
  induction links generalizing directory names with
  | zero =>
      rw [walk] at found ⊢
      obtain same | ⟨other, number, target, ends, linked⟩ := @stretch_follow κ tree directory names
      · rw [same]
        exact found
      · rw [ends] at found
        cases found
        exact absurd linked (plain number target)
  | succ links ih =>
      rw [walk] at found ⊢
      obtain same | ⟨other, number, target, ends, linked⟩ := @stretch_follow κ tree directory names
      · rw [same]
        cases step : tree.stretch false directory names with
        | fails error => rw [step] at found; exact found
        | ends last => rw [step] at found; exact found
        | goes directory names => rw [step] at found; exact ih found
      · rw [ends] at found
        cases found
        exact absurd linked (plain number target)

theorem find_follow {path : Path κ} (found : tree.find false path = .ok entry)
    (plain : ∀ number target, tree.entries entry ≠ some (.link number target)) :
    tree.find true path = .ok entry :=
  walk_follow found plain

/-- Two walks that differ in the last name. -/
theorem stretch_last (last other : κ) (directory : ℕ) (front : List κ) :
    (∃ error, tree.stretch false directory (front ++ [last]) = .fails error) ∨
      (∃ inner, tree.stretch false directory (front ++ [last]) = .ends (inner, last) ∧
        tree.stretch false directory (front ++ [other]) = .ends (inner, other)) ∨
      ∃ inner names, tree.stretch false directory (front ++ [last]) = .goes inner (names ++ [last]) ∧
        tree.stretch false directory (front ++ [other]) = .goes inner (names ++ [other]) := by
  induction front generalizing directory with
  | nil => exact .inr (.inl ⟨directory, by simp [stretch], by simp [stretch]⟩)
  | cons name rest ih =>
      obtain ⟨next, tail, shape⟩ : ∃ next tail, rest ++ [last] = next :: tail :=
        List.exists_cons_of_ne_nil (by simp)
      obtain ⟨next', tail', shape'⟩ : ∃ next' tail', rest ++ [other] = next' :: tail' :=
        List.exists_cons_of_ne_nil (by simp)
      have steps := ih
      simp only [List.cons_append, shape, shape', stretch] at steps ⊢
      rcases tree.entries (directory, name) with _ | number | number | inner | ⟨number, target⟩
      · exact .inl ⟨_, rfl⟩
      · exact .inl ⟨_, rfl⟩
      · exact .inl ⟨_, rfl⟩
      · exact steps inner
      · exact .inr (.inr ⟨tree.start directory target, target.names ++ rest, by simp [shape],
          by simp [shape']⟩)

/-- **A path with another last name leads to the entry of that name in the same directory.** -/
theorem walk_last {links directory : ℕ} {front : List κ} {last : κ}
    (found : tree.walk false links directory (front ++ [last]) = .ok entry) (other : κ) :
    entry.2 = last ∧ tree.walk false links directory (front ++ [other]) = .ok (entry.1, other) := by
  induction links generalizing directory front with
  | zero =>
      rw [walk] at found ⊢
      obtain ⟨error, fails⟩ | ⟨inner, ends, ends'⟩ | ⟨inner, names, goes, goes'⟩ :=
        @stretch_last κ tree last other directory front
      · rw [fails] at found
        cases found
      · rw [ends] at found
        cases found
        exact ⟨rfl, by rw [ends']⟩
      · rw [goes] at found
        cases found
  | succ links ih =>
      rw [walk] at found ⊢
      obtain ⟨error, fails⟩ | ⟨inner, ends, ends'⟩ | ⟨inner, names, goes, goes'⟩ :=
        @stretch_last κ tree last other directory front
      · rw [fails] at found
        cases found
      · rw [ends] at found
        cases found
        exact ⟨rfl, by rw [ends']⟩
      · rw [goes] at found
        rw [goes']
        exact ih found

end Last

/-! ## What is moved -/

section Moved

variable [DecidableEq κ] {tree : DirTree κ} {src target : Entry κ} {number : ℕ}

/-- A file that is moved to an entry that is free or another file: no walk is changed. -/
theorem alike_move (there : tree.entries src = some (.file number))
    (plain : Node.leads (tree.entries target) = none) :
    Alike tree (tree.move src target (.file number)) := by
  unfold move
  split_ifs with same
  · exact ⟨rfl, rfl, fun _ => rfl⟩
  · have first : Alike tree (tree.set src none) := alike_set (by rw [there]; rfl)
    have second : Alike (tree.set src none) ((tree.set src none).set target (some (.file number))) :=
      alike_set (by rw [← first.leads, plain]; rfl)
    exact ⟨first.root.trans second.root, first.cwd.trans second.cwd,
      fun entry => (first.leads entry).trans (second.leads entry)⟩

theorem entries_move (tree : DirTree κ) (src target : Entry κ) (node : Node κ) :
    (tree.move src target node).entries target = some node := by
  unfold move
  split_ifs with same
  · exact same
  · exact entries_set_self ..

/-- **A path leads to the file that is moved to its entry.** -/
theorem at?_move {path : Path κ} (there : tree.entries src = some (.file number))
    (plain : Node.leads (tree.entries target) = none) (found : tree.find false path = .ok target) :
    (tree.move src target (.file number)).at? path = some (.file number) := by
  have moved := ((alike_move there plain).find_iff path target).mp found
  have filled := entries_move tree src target (.file number)
  have followed := find_follow moved (by rw [filled]; rintro _ _ ⟨⟩)
  rw [at?, followed]
  exact filled

end Moved

end DirTree

end Handy
