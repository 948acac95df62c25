import OperatorBundle.Files.Plan
import OperatorBundle.Proofs.Files.Rewrite

/-!
Disks: what plans rely on in a storage. A path leads to a file, to which other paths may lead too,
and a file holds bytes. A text that is written over one that could be read is read back, and it is
the bytes of that one file that change. Files held in memory are such a disk, whatever the machine.

* `Disk.rewritten_of_write`: all that a write changes.
* `Files.disk`: the files in memory as a disk.
-/

namespace OperatorBundle

/-- The bytes of a text. -/
def utf8 (text : String) : List UInt8 := text.toUTF8.toList

/-- The bytes that a file holds. -/
def Content.raw (content : Content) : List UInt8 :=
  match content with
  | .text s => utf8 s
  | .bytes octets => octets

/-- What the files of a storage are found to hold. -/
abbrev Reading := String → Except FileFault String

section Storages

variable {σ : Type} {storage : Storage σ}

/-- Whether what can be read can be written. -/
def Storage.Writable (storage : Storage σ) (state : σ) : Prop :=
  ∀ path source, storage.read state path = .ok source →
    ∀ text, ∃ changed, storage.write state path text = .ok changed

/-- The files of a storage, with what reading and writing have to do with them. -/
structure Disk (storage : Storage σ) where
  /-- What tells one file from another. -/
  File : Type
  /-- The file that a path leads to. -/
  file? : σ → String → Option File
  /-- What a file holds, if there is one. -/
  bytes? : σ → File → Option (List UInt8)
  /-- What is read is what a file holds. -/
  holds_of_read {state : σ} {path text : String} (hread : storage.read state path = .ok text) :
    ∃ file, file? state path = some file ∧ bytes? state file = some (utf8 text)
  /-- What is written is read, where a text could be read before. -/
  read_of_write {state changed : σ} {path old text : String}
    (hread : storage.read state path = .ok old)
    (hwrite : storage.write state path text = .ok changed) :
    storage.read changed path = .ok text
  /-- What was written can be written again. -/
  exists_write_of_write {state changed : σ} {path old text : String}
    (hread : storage.read state path = .ok old)
    (hwrite : storage.write state path text = .ok changed) :
    ∃ again, storage.write changed path text = .ok again
  /-- All paths lead where they led, so no file is created. -/
  file?_of_write {state changed : σ} {path old text : String}
    (hread : storage.read state path = .ok old)
    (hwrite : storage.write state path text = .ok changed) (other : String) :
    file? changed other = file? state other
  /-- A file that the path does not lead to holds what it held. -/
  bytes?_of_write {state changed : σ} {path old text : String} {other : File}
    (hread : storage.read state path = .ok old)
    (hwrite : storage.write state path text = .ok changed)
    (hother : file? state path ≠ some other) : bytes? changed other = bytes? state other

namespace Disk

variable (disk : Disk storage) {state changed : σ} {path old text : String}

/-- Whether the file that a path leads to holds a text. -/
def Holds (state : σ) (path text : String) : Prop :=
  ∃ file, disk.file? state path = some file ∧ disk.bytes? state file = some (utf8 text)

/-- Whether all that two states differ in is the text of the file that a path leads to: it was there
with one text, and has another one now. -/
def Rewritten (state changed : σ) (path old text : String) : Prop :=
  ∃ file, disk.file? state path = some file ∧
    disk.bytes? state file = some (utf8 old) ∧ disk.bytes? changed file = some (utf8 text) ∧
    (∀ other, disk.file? changed other = disk.file? state other) ∧
    ∀ other, other ≠ file → disk.bytes? changed other = disk.bytes? state other

/-- Whether two states have the same files with the same bytes. -/
def SameFiles (state changed : σ) : Prop :=
  (∀ path, disk.file? changed path = disk.file? state path) ∧
    ∀ file, disk.bytes? changed file = disk.bytes? state file

/-- **A write changes the bytes of one file**, to which its path leads. -/
theorem rewritten_of_write (hread : storage.read state path = .ok old)
    (hwrite : storage.write state path text = .ok changed) :
    disk.Rewritten state changed path old text := by
  obtain ⟨file, hfile, hold⟩ := disk.holds_of_read hread
  obtain ⟨file', hfile', hnew⟩ := disk.holds_of_read (disk.read_of_write hread hwrite)
  have hpaths := disk.file?_of_write hread hwrite
  rw [hpaths path] at hfile'
  obtain rfl := Option.some.inj (hfile.symm.trans hfile')
  refine ⟨file, hfile, hold, hnew, hpaths, fun other hother => ?_⟩
  exact disk.bytes?_of_write hread hwrite fun hled =>
    hother (Option.some.inj (hled.symm.trans hfile))

/-- To write what a file holds changes nothing. -/
theorem sameFiles_of_write (hread : storage.read state path = .ok text)
    (hwrite : storage.write state path text = .ok changed) : disk.SameFiles state changed := by
  obtain ⟨file, hfile, hold, hnew, hpaths, hothers⟩ := disk.rewritten_of_write hread hwrite
  refine ⟨hpaths, fun other => ?_⟩
  by_cases hother : other = file
  · rw [hother, hold, hnew]
  · exact hothers other hother

end Disk

end Storages

/-! ### Files in memory -/

namespace Files

variable {machine : Machine} {files changed : Files machine} {name old text : String}
  {place : List String}

/-- Files in memory that can be read can be written. -/
theorem writable (files : Files machine) : storage.Writable files := by
  intro path source hread text
  obtain ⟨changed, hwrite, -⟩ := exists_write_of_read hread text
  exact ⟨changed, hwrite⟩

/-- The place of the file that a path leads to. -/
def file? (files : Files machine) (name : String) : Option (List String) :=
  match files.locate name with
  | .ok ⟨place, some (.file _), false⟩ => some place
  | _ => none

/-- The bytes of the file at a place. -/
def bytes? (files : Files machine) (place : List String) : Option (List UInt8) :=
  match files.nodeAt? place with
  | some (.file content) => some content.raw
  | _ => none

theorem file?_eq_some :
    files.file? name = some place ↔
      ∃ content, files.locate name = .ok ⟨place, some (.file content), false⟩ := by
  unfold file?
  split
  · next found content h => simp [h, eq_comm]
  · next h =>
    constructor
    · intro hnone
      cases hnone
    · rintro ⟨content, hlocate⟩
      exact absurd hlocate (h place content)

/-- All that a write changes. -/
theorem rewritten_of_write (hread : files.read name = .ok old)
    (hwrite : files.write name text = .ok changed) : files.Rewritten changed name old text := by
  obtain ⟨changed', hwrite', hrewritten⟩ := exists_write_of_read hread text
  obtain rfl := Except.ok.inj (hwrite.symm.trans hwrite')
  exact hrewritten

/-- A path leads to the same file wherever the same places hold folders and files. -/
theorem file?_of_sameFolders (hfolders : files.SameFolders changed)
    (hfiles : ∀ place, (∃ content, files.nodeAt? place = some (.file content)) →
      ∃ content, changed.nodeAt? place = some (.file content))
    (h : files.file? name = some place) : changed.file? name = some place := by
  obtain ⟨content, hlocate⟩ := file?_eq_some.1 h
  have hnode : files.nodeAt? place = some (.file content) := nodeAt?_of_locate hlocate (by simp)
  obtain ⟨now, hnow⟩ := hfiles place ⟨content, hnode⟩
  have hlocate' := locate_of_sameFolders hfolders hlocate (by simp)
  rw [hnow] at hlocate'
  exact file?_eq_some.2 ⟨now, hlocate'⟩

namespace Rewritten

theorem sameFolders (h : files.Rewritten changed name old text) : files.SameFolders changed := by
  obtain ⟨there, -, hold, hnew, hothers⟩ := h
  intro place
  by_cases hplace : place = there.path
  · rw [hplace, hold, hnew]
    simp
  · rw [hothers place hplace]

theorem exists_content_iff (h : files.Rewritten changed name old text) (place : List String) :
    (∃ content, files.nodeAt? place = some (.file content)) ↔
      ∃ content, changed.nodeAt? place = some (.file content) := by
  obtain ⟨there, -, hold, hnew, hothers⟩ := h
  by_cases hplace : place = there.path
  · rw [hplace, hold, hnew]
    simp
  · rw [hothers place hplace]

/-- All paths lead to the files that they led to. -/
theorem file?_eq (h : files.Rewritten changed name old text) (other : String) :
    changed.file? other = files.file? other := by
  refine Option.ext fun place => ⟨?_, ?_⟩
  · exact file?_of_sameFolders (fun path => (h.sameFolders path).symm)
      fun there => (h.exists_content_iff there).2
  · exact file?_of_sameFolders h.sameFolders fun there => (h.exists_content_iff there).1

end Rewritten

/-- What is read is what the file holds. -/
theorem holds_of_read (hread : files.read name = .ok text) :
    ∃ place, files.file? name = some place ∧ files.bytes? place = some (utf8 text) := by
  obtain ⟨⟨place, node, asFolder⟩, hplace, rfl, rfl, -⟩ := read_eq_ok.1 hread
  have hnode : files.nodeAt? place = some (.file (.text text)) :=
    nodeAt?_of_locate hplace (by simp)
  refine ⟨place, file?_eq_some.2 ⟨_, hplace⟩, ?_⟩
  simp only [bytes?, hnode]
  rfl

/-- A file that the path does not lead to holds what it held. -/
theorem bytes?_of_write (hread : files.read name = .ok old)
    (hwrite : files.write name text = .ok changed) (hother : files.file? name ≠ some place) :
    changed.bytes? place = files.bytes? place := by
  obtain ⟨⟨there, node, asFolder⟩, hthere, rfl, rfl, -⟩ := read_eq_ok.1 hread
  obtain ⟨found, hfound, -, -, hothers⟩ := rewritten_of_write hread hwrite
  obtain rfl := Except.ok.inj (hthere.symm.trans hfound)
  have hne : place ≠ there := by
    rintro rfl
    exact hother (file?_eq_some.2 ⟨_, hthere⟩)
  unfold bytes?
  rw [hothers place hne]

/-- **The files in memory are a disk**, where the place of a file tells it from others. -/
def disk : Disk (storage : Storage (Files machine)) where
  File := List String
  file? := file?
  bytes? := bytes?
  holds_of_read := holds_of_read
  read_of_write := read_of_write
  exists_write_of_write _ hwrite := ⟨_, write_of_write hwrite⟩
  file?_of_write hread hwrite := (rewritten_of_write hread hwrite).file?_eq
  bytes?_of_write := bytes?_of_write

end Files

end OperatorBundle
