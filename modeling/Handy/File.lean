import Handy.FileSystem

/-!
# `file::renameSave`

`renameSave` writes a temporary file and gives it the name of the old one. It does not look
at how much `write` took, and it removes the old file before the temporary one takes its
place, so it saves all or nothing exactly if neither shows (`renameSave_iff`). Where the temporary
name is no symbolic link, what is left after a rename is only that `write` took everything
(`saved_plain_iff`); a link that is renamed may lead elsewhere (`link_renamed`).
-/

set_option autoImplicit false

namespace Handy

open DirTree

/-! ## The code -/

/-- How the system calls of `renameSave` come out: `none` and a count if the system permits
the call, else the error. -/
structure Outcomes where
  opened : Option Errno
  written : Except Errno ℕ
  unlinked : Option Errno
  renamed : Option Errno

/-- `Status`. -/
structure Status where
  code : ℤ
  msg : Bytes
  deriving DecidableEq, Repr

namespace Status

/-- `Status()`. -/
def success : Status := ⟨0, []⟩

def ok (s : Status) : Bool := s.code == 0

/-- `Status::ioError`, with the C library's `strerror`. -/
def ioError (strerror : ℤ → Bytes) (fs : FileSystem) (op name : Bytes) : Status :=
  ⟨fs.errno, cstr op ++ ascii " " ++ cstr name ++ ascii " " ++ strerror fs.errno⟩

end Status

namespace File

variable (strerror : ℤ → Bytes)

/-- `file::writeContent`. -/
def writeContent (outcomes : Outcomes) (fs : FileSystem) (filename cont : Bytes) :
    Status × FileSystem :=
  match fs.openTruncated outcomes.opened (cstr filename) with
  | (none, fs) => (.ioError strerror fs (ascii "open") filename, fs)
  | (some fd, fs) =>
      let (written, fs) := fs.write outcomes.written fd cont
      let r := toInt32 written
      if r < 0 then (.ioError strerror fs (ascii "write") filename, fs) else (.success, fs)

/-- `file::renameFile`. -/
def renameFile (outcomes : Outcomes) (fs : FileSystem) (src target : Bytes) :
    Status × FileSystem :=
  let (r, fs) := fs.rename outcomes.renamed (cstr src) (cstr target)
  if r ≠ 0 then (.ioError strerror fs (ascii "rename") (src ++ ascii " " ++ target), fs)
  else (.success, fs)

/-- `file::renameSave`. -/
def renameSave (outcomes : Outcomes) (fs : FileSystem) (name tmpName cont : Bytes) :
    Status × FileSystem :=
  let (s, fs) := writeContent strerror outcomes fs tmpName cont
  if s.ok then
    let (_, fs) := fs.unlink outcomes.unlinked (cstr name)
    renameFile strerror outcomes fs tmpName name
  else (s, fs)

/-! ## All or nothing -/

section Save

variable {strerror : ℤ → Bytes} {outcomes : Outcomes} {fs : FileSystem} {name tmpName cont : Bytes}
  {place : Entry Bytes}

theorem ok_ioError {error : Errno} (named : fs.errno = error.1) (op path : Bytes) :
    (Status.ioError strerror fs op path).ok = false := by
  show (fs.errno == 0) = false
  rw [named]
  exact beq_eq_false_iff_ne.mpr error.2

/-- The file that the temporary name leads to cannot be opened. -/
theorem renameSave_refused {error : Errno} (opened : outcomes.opened = some error) :
    (renameSave strerror outcomes fs name tmpName cont).1.ok = false ∧
      (renameSave strerror outcomes fs name tmpName cont).2 = fs.fail error := by
  have failed : (Status.ioError strerror (fs.fail error) (ascii "open") tmpName).ok = false :=
    ok_ioError rfl ..
  simp [renameSave, writeContent, FileSystem.openTruncated, opened, failed]

/-- The temporary name leads to no file that can be opened or created. -/
theorem renameSave_astray {error : Errno} (opened : outcomes.opened = none)
    (astray : fs.opens (cstr tmpName) = .error error) :
    (renameSave strerror outcomes fs name tmpName cont).1.ok = false ∧
      (renameSave strerror outcomes fs name tmpName cont).2 = fs.fail error := by
  have failed : (Status.ioError strerror (fs.fail error) (ascii "open") tmpName).ok = false :=
    ok_ioError rfl ..
  simp [renameSave, writeContent, FileSystem.openTruncated, opened, astray, failed]

/-- The temporary file cannot be written: it is there, and empty. -/
theorem renameSave_write {error : Errno} (opened : outcomes.opened = none)
    (leads : fs.opens (cstr tmpName) = .ok place) (written : outcomes.written = .error error) :
    (renameSave strerror outcomes fs name tmpName cont).1.ok = false ∧
      (renameSave strerror outcomes fs name tmpName cont).2 = (fs.put place []).fail error := by
  have negative : toInt32 (-1) < 0 := by decide
  have failed : (Status.ioError strerror ((fs.put place []).fail error) (ascii "write")
      tmpName).ok = false := ok_ioError rfl ..
  simp [renameSave, writeContent, FileSystem.openTruncated, FileSystem.write, opened, leads, written,
    negative, failed]

/-- Any count that `write` returns is taken for a success. -/
theorem renameSave_written {count : ℕ} (opened : outcomes.opened = none)
    (leads : fs.opens (cstr tmpName) = .ok place) (written : outcomes.written = .ok count) :
    renameSave strerror outcomes fs name tmpName cont =
      renameFile strerror outcomes
        ((fs.put place (cont.take (min count writeMax))).unlink outcomes.unlinked (cstr name)).2
        tmpName name := by
  have positive : ¬ toInt32 ((min count (min cont.length writeMax) : ℕ) : ℤ) < 0 := by
    have small : min count (min cont.length writeMax) < 2 ^ 31 :=
      (min_le_right _ _).trans_lt ((min_le_right _ _).trans_lt writeMax_lt)
    rw [toInt32_eq small]
    exact not_lt.mpr (Int.natCast_nonneg _)
  have succeeds : Status.success.ok = true := rfl
  simp only [renameSave, writeContent, opened, leads, written, FileSystem.openTruncated,
    FileSystem.write_put, if_neg positive, succeeds, if_true]

theorem renameFile_takes {src target : Bytes} {tree : DirTree Bytes}
    (renames : fs.toDirTree.rename outcomes.renamed (cstr src) (cstr target) = .ok tree) :
    (renameFile strerror outcomes fs src target).1.ok = true ∧
      ∀ path, (renameFile strerror outcomes fs src target).2.look path =
        FileSystem.see fs.contents (tree.at? (pathOf path)) := by
  obtain ⟨fs', renamed, after, contents, -⟩ := fs.rename_renames renames
  unfold renameFile
  rw [renamed]
  simp only [ne_eq, not_true_eq_false, if_false]
  exact ⟨rfl, fun path => by rw [FileSystem.look, after, contents]⟩

theorem renameFile_fails {src target : Bytes} {error : Errno}
    (fails : fs.toDirTree.rename outcomes.renamed (cstr src) (cstr target) = .error error) :
    (renameFile strerror outcomes fs src target).1.ok = false ∧
      ∀ path, (renameFile strerror outcomes fs src target).2.look path = fs.look path := by
  have failed := fs.rename_error fails
  have nonzero : (-1 : ℤ) ≠ 0 := by decide
  unfold renameFile
  rw [failed]
  simp only [if_pos nonzero]
  exact ⟨ok_ioError rfl .., fs.look_fail error⟩

/-- `renameSave` saves all or nothing: if it returns success, the contents can be read under
the name, and otherwise what could be seen there before. -/
structure AllOrNothing (strerror : ℤ → Bytes) (outcomes : Outcomes) (fs : FileSystem)
    (name tmpName cont : Bytes) : Prop where
  all : (renameSave strerror outcomes fs name tmpName cont).1.ok = true →
    (renameSave strerror outcomes fs name tmpName cont).2.look (cstr name) = .file cont
  nothing : (renameSave strerror outcomes fs name tmpName cont).1.ok = false →
    (renameSave strerror outcomes fs name tmpName cont).2.look (cstr name) = fs.look (cstr name)

theorem allOrNothing_of_ok
    (ok : (renameSave strerror outcomes fs name tmpName cont).1.ok = true) :
    AllOrNothing strerror outcomes fs name tmpName cont ↔
      (renameSave strerror outcomes fs name tmpName cont).2.look (cstr name) = .file cont :=
  ⟨fun saves => saves.all ok, fun all => ⟨fun _ => all, fun failed =>
    absurd (ok.symm.trans failed) Bool.true_eq_false.mp⟩⟩

theorem allOrNothing_of_error
    (failed : (renameSave strerror outcomes fs name tmpName cont).1.ok = false) :
    AllOrNothing strerror outcomes fs name tmpName cont ↔
      (renameSave strerror outcomes fs name tmpName cont).2.look (cstr name) =
        fs.look (cstr name) :=
  ⟨fun saves => saves.nothing failed, fun same => ⟨fun ok =>
    absurd (ok.symm.trans failed) Bool.true_eq_false.mp, fun _ => same⟩⟩

/-- In the tree after the rename, the name leads to the file that was written, and `write` took all
of it; or it leads to another file, with these contents. -/
def Saved (fs : FileSystem) (tree : DirTree Bytes) (file count : ℕ) (name cont : Bytes) : Prop :=
  ∃ other, tree.at? (pathOf (cstr name)) = some (.file other) ∧
    if other = file then cont.length ≤ min count writeMax else fs.contents other = cont

/-- When the file is saved as a whole or not at all. -/
def Spared (outcomes : Outcomes) (fs : FileSystem) (name tmpName cont : Bytes) : Prop :=
  match outcomes.opened, fs.opens (cstr tmpName), outcomes.written with
  | some _, _, _ => True
  | none, .error _, _ => True
  | none, .ok place, .error _ => fs.Shows place (cstr name) → fs.look (cstr name) = .file []
  | none, .ok place, .ok count =>
      match (fs.made place).unlink outcomes.unlinked (cstr name) with
      | .ok tree =>
          match tree.rename outcomes.renamed (cstr tmpName) (cstr name) with
          | .ok tree => Saved fs tree (fs.fileAt place) count name cont
          | .error _ => fs.look (cstr name) = .absent
      | .error _ =>
          match (fs.made place).rename outcomes.renamed (cstr tmpName) (cstr name) with
          | .ok tree => Saved fs tree (fs.fileAt place) count name cont
          | .error _ => fs.Shows place (cstr name) →
              fs.look (cstr name) = .file (cont.take (min count writeMax))

/-- What can be seen under the name after a rename. -/
theorem saved_iff (tree : DirTree Bytes) (count : ℕ) :
    FileSystem.see (Function.update fs.contents (fs.fileAt place) (cont.take (min count writeMax)))
        (tree.at? (pathOf (cstr name))) = .file cont ↔
      Saved fs tree (fs.fileAt place) count name cont := by
  unfold Saved
  rcases tree.at? (pathOf (cstr name)) with _ | other | _ | _ | _
  · simp [FileSystem.see]
  · by_cases same : other = fs.fileAt place
    · simp [FileSystem.see, same, List.take_eq_self_iff]
    · simp [FileSystem.see, same]
  · simp [FileSystem.see]
  · simp [FileSystem.see]
  · simp [FileSystem.see]

/-- A name under which a write does not show, or that held what is written. -/
theorem look_put_iff (leads : fs.opens (cstr tmpName) = .ok place) (bytes : Bytes) :
    (fs.put place bytes).look (cstr name) = fs.look (cstr name) ↔
      (fs.Shows place (cstr name) → fs.look (cstr name) = .file bytes) := by
  by_cases shows_ : fs.Shows place (cstr name)
  · rw [fs.look_put_of_shows shows_]
    exact ⟨fun kept _ => kept.symm, fun held => (held shows_).symm⟩
  · rw [fs.look_put_of_not_shows (opens_plain leads).2 shows_]
    exact iff_of_true rfl fun shown => absurd shown shows_

/-- **`renameSave` saves all or nothing exactly if no short write is renamed and no old file is
removed in vain.** -/
theorem renameSave_iff (strerror : ℤ → Bytes) (outcomes : Outcomes) (fs : FileSystem)
    (name tmpName cont : Bytes) :
    AllOrNothing strerror outcomes fs name tmpName cont ↔
      Spared outcomes fs name tmpName cont := by
  unfold Spared
  cases opened : outcomes.opened with
  | some error =>
      obtain ⟨failed, after⟩ := @renameSave_refused strerror outcomes fs name tmpName cont error opened
      rw [allOrNothing_of_error failed, after, FileSystem.look_fail]
      exact iff_of_true rfl trivial
  | none =>
  cases leads : fs.opens (cstr tmpName) with
  | error error =>
      obtain ⟨failed, after⟩ := @renameSave_astray strerror outcomes fs name tmpName cont error
        opened leads
      rw [allOrNothing_of_error failed, after, FileSystem.look_fail]
      exact iff_of_true rfl trivial
  | ok place =>
  cases written : outcomes.written with
  | error error =>
      obtain ⟨failed, after⟩ := @renameSave_write strerror outcomes fs name tmpName cont place error
        opened leads written
      rw [allOrNothing_of_error failed, after, FileSystem.look_fail]
      exact look_put_iff leads []
  | ok count =>
      have saves := @renameSave_written strerror outcomes fs name tmpName cont place count opened
        leads written
      -- the tree of the file system with the written file
      have tree : (fs.put place (cont.take (min count writeMax))).toDirTree = fs.made place := rfl
      simp only
      cases removes : (fs.made place).unlink outcomes.unlinked (cstr name) with
      | ok left =>
          obtain ⟨fs', gone, after, contents⟩ := FileSystem.unlink_removes _ (tree ▸ removes)
          rw [gone] at saves
          simp only
          cases renames : left.rename outcomes.renamed (cstr tmpName) (cstr name) with
          | ok final =>
              obtain ⟨ok, looks⟩ := @renameFile_takes strerror outcomes fs' tmpName name final
                (after ▸ renames)
              rw [← saves] at ok looks
              rw [allOrNothing_of_ok ok, looks, contents]
              exact saved_iff final count
          | error error =>
              obtain ⟨failed, looks⟩ := @renameFile_fails strerror outcomes fs' tmpName name error
                (after ▸ renames)
              rw [← saves] at failed looks
              obtain ⟨-, entry, found, rfl⟩ := unlink_ok removes
              have nothing : fs'.look (cstr name) = .absent := by
                rw [FileSystem.look, after, at?_removed found]
                rfl
              rw [allOrNothing_of_error failed, looks, nothing]
              exact eq_comm
      | error error =>
          rw [FileSystem.unlink_error _ (tree ▸ removes)] at saves
          cases renames : (fs.made place).rename outcomes.renamed (cstr tmpName) (cstr name) with
          | ok final =>
              obtain ⟨ok, looks⟩ := @renameFile_takes strerror outcomes
                ((fs.put place (cont.take (min count writeMax))).fail error) tmpName name final renames
              rw [← saves] at ok looks
              rw [allOrNothing_of_ok ok, looks]
              exact saved_iff final count
          | error other =>
              obtain ⟨failed, looks⟩ := @renameFile_fails strerror outcomes
                ((fs.put place (cont.take (min count writeMax))).fail error) tmpName name other renames
              rw [← saves] at failed looks
              rw [allOrNothing_of_error failed, looks, FileSystem.look_fail]
              exact look_put_iff leads _

/-- A temporary name that is no symbolic link, and a name that is none any more, or that is
removed: what a rename leaves to be asked is that `write` took everything. -/
theorem saved_plain_iff {tree tree' : DirTree Bytes} {old new : Entry Bytes} {file count : ℕ}
    (renames : tree.rename outcomes.renamed (cstr tmpName) (cstr name) = .ok tree')
    (found : tree.find false (pathOf (cstr tmpName)) = .ok old)
    (plain : tree.entries old = some (.file file))
    (found' : tree.find false (pathOf (cstr name)) = .ok new)
    (plain' : Node.leads (tree.entries new) = none) :
    Saved fs tree' file count name cont ↔ cont.length ≤ min count writeMax := by
  obtain ⟨-, old', new', node, first, second, there, rfl⟩ := rename_ok renames
  rw [found] at first
  rw [found'] at second
  cases first
  cases second
  rw [plain] at there
  cases there
  have leads : (tree.move old new (.file file)).at? (pathOf (cstr name)) = some (.file file) :=
    at?_move plain plain' found'
  unfold Saved
  rw [leads]
  constructor
  · rintro ⟨other, same, taken⟩
    cases same
    rwa [if_pos rfl] at taken
  · intro taken
    exact ⟨file, rfl, by rwa [if_pos rfl]⟩

/-- A write of one byte out of three is renamed, and success returned. -/
theorem short_write_renamed :
    ¬ AllOrNothing (fun _ => []) ⟨none, .ok 1, none, none⟩ .oneFile (ascii "a") (ascii "b")
      (ascii "new") := by
  intro saves
  exact absurd (saves.all (by decide +kernel)) (by decide +kernel)

/-- The file 0 under the name `a`, and a symbolic link `b` to it. -/
def linkedFile : FileSystem :=
  .flat (fun name => if name = ascii "a" then some (.file 0)
    else if name = ascii "b" then some (.link 1 ⟨false, [ascii "a"]⟩) else none) (by
    intro name file found
    split_ifs at found
    · cases found
      rfl
    · cases found)

/-- The temporary name is a symbolic link to the name, and nothing fails: the name becomes a link to
itself. -/
theorem link_renamed :
    ¬ AllOrNothing (fun _ => []) ⟨none, .ok 3, none, none⟩ linkedFile (ascii "a") (ascii "b")
      (ascii "new") := by
  intro saves
  exact absurd (saves.all (by decide +kernel)) (by decide +kernel)

end Save

end File

end Handy
