import Mathlib.Data.List.Basic
import OperatorBundle.Files

/-!
Files that are written. Where a path leads depends on where the folders are, and a file that is
written changes none of them: all paths lead where they led, what is read is what was written, and
to write it again changes nothing. A file that can be read can be written, and all others stay as
they are.

* `Files.follow_of_sameFolders`: a path leads to the same place wherever the folders are the same.
* `Files.exists_write_of_read`: the files that a write leaves.
-/

namespace OperatorBundle.Files

variable {machine : Machine} {files changed : Files machine} {place : Place} {node : FileNode}
  {path other : List String}

/-! ### Nodes that are put in -/

theorem nodeAt?_insert_self (h : path.isPrefixOf machine.start = false) :
    (files.insert path node).nodeAt? path = some node := by
  simp [nodeAt?, h, insert]

theorem nodeAt?_insert_of_ne (h : other ≠ path) :
    (files.insert path node).nodeAt? other = files.nodeAt? other := by
  unfold nodeAt? insert
  split_ifs
  · rfl
  · have hne : (other == path) = false := by simpa using h
    rw [List.lookup_cons, hne]
    induction files.nodes with
    | nil => rfl
    | cons entry more ih =>
      by_cases hentry : entry.1 = path
      · have hkey : (other == entry.1) = false := by simpa [hentry] using h
        rw [List.filter_cons_of_neg (by simpa using hentry), List.lookup_cons, hkey]
        exact ih
      · rw [List.filter_cons_of_pos (by simpa using hentry), List.lookup_cons, List.lookup_cons]
        cases other == entry.1 with
        | true => rfl
        | false => exact ih

/-- Putting in what is there changes nothing. -/
theorem insert_insert : (files.insert path node).insert path node = files.insert path node := by
  simp [insert, List.filter_filter]

/-- The folder that a run starts in and those above it are folders. -/
theorem isPrefixOf_start_eq_false (h : files.nodeAt? path ≠ some .folder) :
    path.isPrefixOf machine.start = false := by
  rw [Bool.eq_false_iff]
  intro habove
  exact h (if_pos habove)

/-! ### Paths that lead to files -/

/-- Where a path leads is what stands there, but for folders. -/
theorem nodeAt?_of_follow {asFolder : Bool} {folder parts : List String}
    (h : files.follow asFolder folder parts = .ok place) (hnode : place.node ≠ some .folder) :
    files.nodeAt? place.path = place.node := by
  fun_induction follow files asFolder folder parts with
  | case1 folder =>
    obtain rfl := Except.ok.inj h
    exact absurd rfl hnode
  | case2 | case5 | case8 | case10 => cases h
  | case3 folder rest _ ih => exact ih h
  | case4 folder rest _ _ ih => exact ih h
  | case6 folder part rest _ _ _ _ hfolder ih => exact ih h
  | case7 folder part rest _ _ _ _ content hfile _ =>
    obtain rfl := Except.ok.inj h
    exact hfile
  | case9 folder part rest _ _ _ _ hnone _ =>
    obtain rfl := Except.ok.inj h
    exact hnone

theorem asFolder_of_follow {asFolder : Bool} {folder parts : List String}
    (h : files.follow asFolder folder parts = .ok place) : place.asFolder = asFolder := by
  fun_induction follow files asFolder folder parts with
  | case1 | case7 | case9 => rw [← Except.ok.inj h]
  | case2 | case5 | case8 | case10 => cases h
  | case3 folder rest _ ih => exact ih h
  | case4 folder rest _ _ ih => exact ih h
  | case6 folder part rest _ _ _ _ _ ih => exact ih h

/-- Whether the same places hold folders. -/
def SameFolders (files changed : Files machine) : Prop :=
  ∀ path, files.nodeAt? path = some .folder ↔ changed.nodeAt? path = some .folder

/-- A file that is put where no folder stands leaves the folders. -/
theorem sameFolders_insert {content : Content} (h : files.nodeAt? path ≠ some .folder) :
    files.SameFolders (files.insert path (.file content)) := by
  intro other
  by_cases hother : other = path
  · rw [hother, nodeAt?_insert_self (isPrefixOf_start_eq_false h)]
    simp [h]
  · rw [nodeAt?_insert_of_ne hother]

/-- The last part of a path leads to what stands there, but for folders. -/
theorem follow_last {asFolder : Bool} {folder : List String} {part : String}
    (hopen : machine.barred folder = none) (hdot : part ≠ ".") (hdots : part ≠ "..")
    (hlimit : ¬ partLimit < part.utf8ByteSize)
    (hnode : files.nodeAt? (folder ++ [part]) ≠ some .folder) :
    files.follow asFolder folder [part] =
      .ok ⟨folder ++ [part], files.nodeAt? (folder ++ [part]), asFolder⟩ := by
  simp only [follow, hopen, hdot, hdots, hlimit, if_false]
  rcases hfound : files.nodeAt? (folder ++ [part]) with _ | content | _
  · rfl
  · rfl
  · exact absurd hfound hnode

/-- **A path leads to the same place wherever the folders are the same.** -/
theorem follow_of_sameFolders {asFolder : Bool} {folder parts : List String}
    (hfolders : files.SameFolders changed) (h : files.follow asFolder folder parts = .ok place)
    (hnode : place.node ≠ some .folder) :
    changed.follow asFolder folder parts =
      .ok ⟨place.path, changed.nodeAt? place.path, asFolder⟩ := by
  fun_induction follow files asFolder folder parts with
  | case1 folder =>
    obtain rfl := Except.ok.inj h
    exact absurd rfl hnode
  | case2 | case5 | case8 | case10 => cases h
  | case3 folder rest hopen ih =>
    simp only [follow, hopen, if_true]
    exact ih h
  | case4 folder rest hopen _ ih =>
    simp only [follow, hopen]
    exact ih h
  | case6 folder part rest hopen hdot hdots hlimit hfolder ih =>
    simp only [follow, hopen, hdot, hdots, hlimit, if_false, (hfolders _).1 hfolder]
    exact ih h
  | case7 folder part rest hopen hdot hdots hlimit content hfile hrest =>
    obtain rfl := Except.ok.inj h
    obtain rfl := List.isEmpty_iff.1 hrest
    exact follow_last hopen hdot hdots hlimit fun hfolder => by
      simp [(hfolders _).2 hfolder] at hfile
  | case9 folder part rest hopen hdot hdots hlimit hnone hrest =>
    obtain rfl := Except.ok.inj h
    obtain rfl := List.isEmpty_iff.1 hrest
    exact follow_last hopen hdot hdots hlimit fun hfolder => by
      simp [(hfolders _).2 hfolder] at hnone

section Names

variable {name old text : String}

/-- How a path is followed does not depend on the files. -/
theorem exists_follow_of_locate (h : files.locate name = .ok place) :
    ∃ asFolder folder parts, ∀ other : Files machine,
      other.locate name = other.follow asFolder folder parts := by
  unfold locate at h ⊢
  simp only at h ⊢
  split_ifs at h ⊢ <;> exact ⟨_, _, _, fun _ => rfl⟩

theorem nodeAt?_of_locate (h : files.locate name = .ok place) (hnode : place.node ≠ some .folder) :
    files.nodeAt? place.path = place.node := by
  obtain ⟨asFolder, folder, parts, hfollow⟩ := exists_follow_of_locate h
  rw [hfollow] at h
  exact nodeAt?_of_follow h hnode

theorem locate_of_sameFolders (hfolders : files.SameFolders changed)
    (h : files.locate name = .ok place) (hnode : place.node ≠ some .folder) :
    changed.locate name = .ok ⟨place.path, changed.nodeAt? place.path, place.asFolder⟩ := by
  obtain ⟨asFolder, folder, parts, hfollow⟩ := exists_follow_of_locate h
  rw [hfollow] at h ⊢
  rw [asFolder_of_follow h]
  exact follow_of_sameFolders hfolders h hnode

/-! ### Reading and writing -/

/-- What a read that succeeds finds. -/
theorem read_eq_ok :
    files.read name = .ok text ↔ ∃ place, files.locate name = .ok place ∧
      place.asFolder = false ∧ place.node = some (.file (.text text)) ∧
      machine.locked place.path = none := by
  unfold read Machine.unlock
  cases files.locate name with
  | error fault => simp [bind, Except.bind]
  | ok place =>
    simp only [bind, Except.bind, Except.ok.injEq, exists_eq_left']
    cases hfolder : place.asFolder <;> cases machine.locked place.path <;>
      rcases place.node with _ | ⟨found | bytes⟩ | _ <;> simp

/-- What a write that succeeds does. -/
theorem write_eq_ok :
    files.write name text = .ok changed ↔
      ∃ place, files.locate name = .ok place ∧ place.asFolder = false ∧
        place.node ≠ some .folder ∧ files.insert place.path (.file (.text text)) = changed := by
  unfold write
  cases files.locate name with
  | error fault => simp [bind, Except.bind]
  | ok place =>
    simp only [bind, Except.bind, Except.ok.injEq, exists_eq_left']
    cases hfolder : place.asFolder <;> by_cases hnode : place.node = some .folder <;>
      simp [hnode]

/-- A path that a text is written to leads to that text, and the folders stay. -/
theorem locate_of_write (h : files.write name text = .ok changed) :
    ∃ place, files.locate name = .ok place ∧ place.asFolder = false ∧
      changed.locate name = .ok ⟨place.path, some (.file (.text text)), false⟩ ∧
      files.SameFolders changed := by
  obtain ⟨place, hplace, hfolder, hnode, rfl⟩ := write_eq_ok.1 h
  have hthere : files.nodeAt? place.path ≠ some .folder := by
    rwa [nodeAt?_of_locate hplace hnode]
  have hfolders : files.SameFolders (files.insert place.path (.file (.text text))) :=
    sameFolders_insert hthere
  have hnow := locate_of_sameFolders hfolders hplace hnode
  rw [nodeAt?_insert_self (isPrefixOf_start_eq_false hthere), hfolder] at hnow
  exact ⟨place, hplace, hfolder, hnow, hfolders⟩

/-- **Writing again what is there changes nothing.** -/
theorem write_of_write (h : files.write name text = .ok changed) :
    changed.write name text = .ok changed := by
  obtain ⟨place, hplace, -, hnode, rfl⟩ := write_eq_ok.1 h
  obtain ⟨place', hplace', -, hnow, -⟩ := locate_of_write h
  obtain rfl := Except.ok.inj (hplace.symm.trans hplace')
  exact write_eq_ok.2 ⟨_, hnow, rfl, by simp, insert_insert⟩

/-- **What is written is read**, where a text could be read before. -/
theorem read_of_write (hread : files.read name = .ok old)
    (h : files.write name text = .ok changed) : changed.read name = .ok text := by
  obtain ⟨place, hplace, hfolder, hnode, hopen⟩ := read_eq_ok.1 hread
  obtain ⟨place', hplace', -, hnow, -⟩ := locate_of_write h
  obtain rfl := Except.ok.inj (hplace.symm.trans hplace')
  exact read_eq_ok.2 ⟨_, hnow, rfl, rfl, hopen⟩

/-- Whether all that files differ in is the text of the file that a path leads to: it was there with
one text, and has another one now. -/
def Rewritten (files changed : Files machine) (name old text : String) : Prop :=
  ∃ place, files.locate name = .ok place ∧
    files.nodeAt? place.path = some (.file (.text old)) ∧
    changed.nodeAt? place.path = some (.file (.text text)) ∧
    ∀ other, other ≠ place.path → changed.nodeAt? other = files.nodeAt? other

/-- **A file that can be read can be written**, and nothing else changes with it. -/
theorem exists_write_of_read (hread : files.read name = .ok old) (text : String) :
    ∃ changed, files.write name text = .ok changed ∧ files.Rewritten changed name old text := by
  obtain ⟨place, hplace, hfolder, hnode, -⟩ := read_eq_ok.1 hread
  have hfile : place.node ≠ some .folder := by simp [hnode]
  have hthere := (nodeAt?_of_locate hplace hfile).trans hnode
  have hbelow : place.path.isPrefixOf machine.start = false :=
    isPrefixOf_start_eq_false (by rw [hthere]; simp)
  exact ⟨_, write_eq_ok.2 ⟨place, hplace, hfolder, hfile, rfl⟩, place, hplace, hthere,
    nodeAt?_insert_self hbelow, fun other hother => nodeAt?_insert_of_ne hother⟩

end Names

end OperatorBundle.Files
