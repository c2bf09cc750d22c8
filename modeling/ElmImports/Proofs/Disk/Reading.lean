import ElmImports.Lines.Source

/-!
# Reading what is there

A path that can be read leads to a regular file. The converse fails for a locked file only, so that on a disk without
locked files what is there can be read.
-/

namespace ElmImports.Disk

variable {disk : Disk} {place : Place} {p : Path} {content : Bytes}

theorem isRegular_iff : disk.isRegular place = true ↔
    (∃ content, disk.node? place = some (.file content)) ∨ disk.node? place = some .lockedFile := by
  unfold isRegular
  split
  · rename_i content hnode
    exact iff_of_true rfl (.inl ⟨content, hnode⟩)
  · rename_i hnode
    exact iff_of_true rfl (.inr hnode)
  · rename_i hfile hlocked
    exact iff_of_false Bool.false_ne_true fun h => h.elim (fun ⟨content, hnode⟩ => hfile content hnode) hlocked

theorem isSome_of_isRegular (h : disk.isRegular place = true) : (disk.node? place).isSome := by
  obtain ⟨content, hnode⟩ | hnode := isRegular_iff.mp h
  all_goals
    rw [hnode]
    rfl

theorem isFile_iff : disk.isFile p = true ↔ ∃ place, disk.locate p = .ok place ∧ disk.isRegular place = true := by
  unfold isFile
  cases disk.locate p with
  | error cause => exact iff_of_false Bool.false_ne_true nofun
  | ok place => exact ⟨fun h => ⟨place, rfl, h⟩, fun ⟨_, he, h⟩ => Except.ok.inj he ▸ h⟩

theorem read_of_locate_error {cause : OsError} (h : disk.locate p = .error cause) : disk.read p = .error cause := by
  unfold Disk.read
  rw [h]
  rfl

theorem read_of_locate (h : disk.locate p = .ok place) : disk.read p = match disk.node? place with
    | some (.file content) => .ok content
    | some .lockedFile => .error .permissionDenied
    | some .directory => .error .isADirectory
    | none => .error .notFound := by
  unfold Disk.read
  rw [h]
  rfl

theorem source_of_locate (h : disk.locate p = .ok place) : disk.source p = match disk.node? place with
    | some (.file content) => .ok [.data content]
    | some .lockedFile => .error .permissionDenied
    | some .directory => .ok [.failure .isADirectory]
    | none => .error .notFound := by
  unfold Disk.source
  rw [h]
  rfl

/-- What can be read is a regular file that is not locked. -/
theorem read_eq_ok_iff : disk.read p = .ok content ↔
    ∃ place, disk.locate p = .ok place ∧ disk.node? place = some (.file content) := by
  constructor
  · intro h
    cases hlocate : disk.locate p with
    | error cause =>
      rw [read_of_locate_error hlocate] at h
      cases h
    | ok place =>
      rw [read_of_locate hlocate] at h
      split at h
      · cases h
        exact ⟨place, rfl, ‹_›⟩
      all_goals cases h
  · rintro ⟨place, hlocate, hnode⟩
    rw [read_of_locate hlocate, hnode]

theorem isFile_of_read (h : disk.read p = .ok content) : disk.isFile p = true := by
  obtain ⟨place, hlocate, hnode⟩ := read_eq_ok_iff.mp h
  exact isFile_iff.mpr ⟨place, hlocate, isRegular_iff.mpr (.inl ⟨content, hnode⟩)⟩

theorem source_of_read (h : disk.read p = .ok content) : disk.source p = .ok [.data content] := by
  obtain ⟨place, hlocate, hnode⟩ := read_eq_ok_iff.mp h
  rw [source_of_locate hlocate, hnode]

/-- What cannot be read cannot be opened either, apart from a directory. -/
theorem source_of_read_error {cause : OsError} (h : disk.read p = .error cause) :
    disk.source p = .error cause ∨ disk.source p = .ok [.failure .isADirectory] := by
  cases hlocate : disk.locate p with
  | error cause' =>
    obtain rfl := Except.error.inj ((read_of_locate_error hlocate).symm.trans h)
    left
    unfold Disk.source
    rw [hlocate]
    rfl
  | ok place =>
    rw [read_of_locate hlocate] at h
    rw [source_of_locate hlocate]
    split at h
    · cases h
    · cases h
      exact .inl rfl
    · exact .inr rfl
    · cases h
      exact .inl rfl

/-! ## What a disk holds -/

theorem mem_toList {node : Node} (hnode : node ≠ .directory) (h : disk.node? place = some node) :
    (place, node) ∈ disk.nodes.toList := by
  cases place with
  | nil => exact absurd (Option.some.inj h).symm hnode
  | cons name above => exact Std.TreeMap.mem_toList_iff_getElem?_eq_some.mpr h

theorem mem_contents (h : disk.node? place = some (.file content)) : content ∈ disk.contents :=
  List.mem_filterMap.mpr ⟨(place, .file content), mem_toList (by rintro ⟨⟩) h, rfl⟩

/-! ## Disks without locked files -/

def IsReadable (disk : Disk) : Prop :=
  ∀ place, disk.node? place ≠ some .lockedFile

instance (disk : Disk) : Decidable disk.IsReadable :=
  decidable_of_iff (∀ entry ∈ disk.nodes.toList, disk.node? entry.1 ≠ some .lockedFile)
    ⟨fun h _ hnode => h _ (mem_toList (by rintro ⟨⟩) hnode) hnode, fun h entry _ => h entry.1⟩

theorem IsReadable.exists_read (hreadable : disk.IsReadable) (h : disk.isFile p = true) :
    ∃ content, disk.read p = .ok content := by
  obtain ⟨place, hlocate, hregular⟩ := isFile_iff.mp h
  obtain ⟨content, hnode⟩ := (isRegular_iff.mp hregular).resolve_right (hreadable place)
  exact ⟨content, read_eq_ok_iff.mpr ⟨place, hlocate, hnode⟩⟩

end ElmImports.Disk
