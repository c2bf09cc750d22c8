import ElmImports.Proofs.Disk.Reading
import ElmImports.Proofs.Path.Spelled

/-!
# Disks are trees

On a disk every node lies in a directory and has a proper name. So a node that exists can be reached from any
directory above it, piece by piece; and wherever a lookup ends, it ends where the path leads when nothing is looked
up.
-/

namespace ElmImports

structure IsFileName (name : Bytes) : Prop where
  step : (Component.name name).IsStep
  nul : 0 ∉ name
  short : name.length ≤ Disk.longestName

instance (name : Bytes) : Decidable (IsFileName name) :=
  have : Decidable (Component.name name).IsStep := inferInstanceAs (Decidable (_ ∧ _))
  decidable_of_iff ((Component.name name).IsStep ∧ 0 ∉ name ∧ name.length ≤ Disk.longestName)
    ⟨fun ⟨step, nul, short⟩ => ⟨step, nul, short⟩, fun h => ⟨h.step, h.nul, h.short⟩⟩

/-- Every node lies in a directory, under a proper name, and work goes on in a directory. -/
structure Disk.IsTree (disk : Disk) : Prop where
  parent : ∀ {name above}, (disk.node? (name :: above)).isSome → disk.isDirectory above = true
  name : ∀ {name above}, (disk.node? (name :: above)).isSome → IsFileName name
  cwd : ∀ {place}, disk.cwd = some place → disk.isDirectory place = true

namespace Disk

variable {disk : Disk}

theorem isDirectory_iff {place : Place} : disk.isDirectory place = true ↔ disk.node? place = some .directory := by
  unfold isDirectory
  split
  · rename_i hnode
    exact iff_of_true rfl hnode
  · rename_i hnot
    exact iff_of_false Bool.false_ne_true hnot

theorem isSome_of_isDirectory {place : Place} (h : disk.isDirectory place = true) : (disk.node? place).isSome := by
  rw [isDirectory_iff.mp h]
  rfl

theorem not_isDirectory_of_isRegular {place : Place} (h : disk.isRegular place = true) :
    disk.isDirectory place = false := by
  unfold isDirectory
  obtain ⟨content, hnode⟩ | hnode := isRegular_iff.mp h
  all_goals rw [hnode]

namespace IsTree

variable (h : disk.IsTree)
include h

theorem isDirectory_tail {place : Place} (hplace : disk.isDirectory place = true) :
    disk.isDirectory place.tail = true := by
  cases place with
  | nil => exact hplace
  | cons name above => exact h.parent (isSome_of_isDirectory hplace)

theorem isDirectory_drop {place : Place} (hplace : disk.isDirectory place = true) (n : Nat) :
    disk.isDirectory (place.drop n) = true := by
  induction n with
  | zero => exact hplace
  | succ n ih =>
    rw [← List.tail_drop]
    exact h.isDirectory_tail ih

/-- What lies above a node exists, and the names on the way to it are proper. -/
theorem above : ∀ {names : List Bytes} {place : Place}, (disk.node? (names ++ place)).isSome →
    (disk.node? place).isSome ∧ ∀ name ∈ names, IsFileName name
  | [], _, hnode => ⟨hnode, List.forall_mem_nil _⟩
  | name :: names, place, hnode => by
    obtain ⟨hplace, hnames⟩ := above (isSome_of_isDirectory (h.parent hnode))
    exact ⟨hplace, List.forall_mem_cons.mpr ⟨h.name hnode, hnames⟩⟩

/-! ## From place to place -/

theorem enter_name {name : Bytes} {place : Place} (hnode : (disk.node? (name :: place)).isSome) :
    disk.enter place name = .ok (name :: place) := by
  have hname := h.name hnode
  have hsomething : ¬ (name = [] ∨ name = [Path.dot]) := not_or.mpr ⟨hname.step.ne_nil, hname.step.ne_dot⟩
  have hdots : name ≠ [Path.dot, Path.dot] := by
    rintro rfl
    cases hname.step.1
  have hexists : (disk.node? (name :: place)).isNone = false := by rw [← Option.not_isSome, hnode]; rfl
  unfold enter
  rw [h.parent hnode, hexists, if_neg hsomething, if_neg hdots, if_neg (Nat.not_lt_of_le hname.short)]
  rfl

end IsTree

theorem enter_parent {place : Place} (hplace : disk.isDirectory place = true) :
    disk.enter place Component.parent.spelling = .ok place.tail := by
  unfold enter
  rw [hplace]
  rfl

/-! ## Where a lookup ends -/

theorem follow_of_enter {place place' : Place} {piece : Bytes} (h : disk.enter place piece = .ok place') :
    place' = (Component.ofPiece? piece).elim place place.follow ∧ disk.isDirectory place = true := by
  unfold enter at h
  split at h
  · cases h
  · rename_i hdirectory
    refine ⟨?_, by simpa using hdirectory⟩
    split at h
    · rename_i hnothing
      cases h
      rcases hnothing with rfl | rfl <;> rfl
    · rename_i hsomething
      split at h
      · rename_i hdots
        cases h
        subst hdots
        rfl
      · rename_i hdots
        split at h
        · cases h
        · split at h
          · cases h
          · cases h
            have hpiece : Component.ofPiece? piece = some (.name piece) := by
              unfold Component.ofPiece?
              split
              · exact absurd (.inl rfl) hsomething
              · exact absurd (.inr rfl) hsomething
              · exact absurd rfl hdots
              · rfl
            rw [hpiece]
            rfl

theorem foldl_follow_of_enter : ∀ {pieces : List Bytes} {place place' : Place},
    pieces.foldlM disk.enter place = .ok place' →
      place' = (pieces.filterMap Component.ofPiece?).foldl Place.follow place
  | [], _, _, h => (Except.ok.inj h).symm
  | piece :: pieces, place, place', h => by
    rw [List.foldlM_cons] at h
    cases henter : disk.enter place piece with
    | error cause =>
      rw [henter] at h
      cases h
    | ok next =>
      rw [henter] at h
      obtain ⟨hnext, -⟩ := follow_of_enter henter
      rw [foldl_follow_of_enter h, hnext, List.filterMap_cons]
      cases Component.ofPiece? piece <;> rfl

theorem locate_eq_ok {p : Path} {place : Place} (h : disk.locate p = .ok place) :
    ∃ start, disk.start p = .ok start ∧ (p.bytes.splitOn Path.slash).foldlM disk.enter start = .ok place := by
  unfold locate at h
  split at h
  · cases h
  · split at h
    · cases h
    · split at h
      · cases h
      · cases hstart : disk.start p with
        | error cause =>
          rw [hstart] at h
          cases h
        | ok start =>
          rw [hstart] at h
          exact ⟨start, rfl, h⟩

/-- A path that leads somewhere leads where its components do. -/
theorem along_of_locate {p : Path} {place cwd : Place} (hcwd : p.isAbsolute = true ∨ disk.cwd = some cwd)
    (h : disk.locate p = .ok place) : place = cwd.along p := by
  obtain ⟨start, hstart, hplace⟩ := locate_eq_ok h
  have hopening : start = p.opening.foldl Place.follow cwd := by
    unfold Disk.start at hstart
    unfold Path.opening
    by_cases habsolute : p.isAbsolute = true
    · rw [if_pos habsolute] at hstart ⊢
      exact (Except.ok.inj hstart).symm
    · rw [if_neg habsolute, hcwd.resolve_left habsolute] at hstart
      rw [if_neg habsolute]
      split <;> exact (Except.ok.inj hstart).symm
  rw [Place.along_eq_foldl, Path.components, List.foldl_append, ← hopening]
  exact foldl_follow_of_enter hplace

end Disk

end ElmImports
