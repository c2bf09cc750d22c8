import ElmImports.Disk.Change
import ElmImports.Proofs.Disk.Tree

/-!
# Changing a tree

What changes a disk keeps it a tree: a directory or a file is made together with the directories above it, if the names
on the way to it are proper and no file is in its way, and what is removed is removed with all that lies under it.
-/

namespace ElmImports

namespace Disk

variable {disk : Disk} {place here : Place} {name : Bytes} {node : Node}

theorem node?_put (hne : place ≠ []) :
    (disk.put place node).node? here = if here = place then some node else disk.node? here := by
  cases here with
  | nil => rw [if_neg hne.symm]; rfl
  | cons name above =>
    show (disk.nodes.insert place node)[name :: above]? = _
    rw [Std.TreeMap.getElem?_insert]
    simp only [Std.compare_eq_iff_eq, @eq_comm _ place]
    rfl

theorem isDirectory_put (hne : place ≠ []) (hkeep : node = .directory ∨ disk.isDirectory place = false)
    (h : disk.isDirectory here = true) : (disk.put place node).isDirectory here = true := by
  rw [isDirectory_iff, node?_put hne]
  split
  · rename_i hhere
    subst hhere
    exact congrArg some (hkeep.resolve_right (by rw [h]; exact fun he => nomatch he))
  · exact isDirectory_iff.mp h

namespace IsTree

theorem put (htree : disk.IsTree) {above : Place} (habove : disk.isDirectory above = true) (hname : IsFileName name)
    (hkeep : node = .directory ∨ disk.isDirectory (name :: above) = false) :
    (disk.put (name :: above) node).IsTree := by
  have hne : name :: above ≠ [] := List.cons_ne_nil _ _
  have hold {here : Place} (h : ((disk.put (name :: above) node).node? here).isSome) :
      here = name :: above ∨ (disk.node? here).isSome := by
    rw [node?_put hne] at h
    split at h
    · exact .inl ‹_›
    · exact .inr h
  refine ⟨fun h => ?_, fun h => ?_, fun h => isDirectory_put hne hkeep (htree.cwd h)⟩
  · rcases hold h with he | h
    · rw [(List.cons.inj he).2]
      exact isDirectory_put hne hkeep habove
    · exact isDirectory_put hne hkeep (htree.parent h)
  · rcases hold h with he | h
    · rw [(List.cons.inj he).1]
      exact hname
    · exact htree.name h

end IsTree

/-! ## Making directories and files -/

theorem makeDirectory_cons (name : Bytes) (above : Place) : disk.makeDirectory (name :: above) =
    if ((disk.makeDirectory above).node? (name :: above)).isSome then disk.makeDirectory above
    else (disk.makeDirectory above).put (name :: above) .directory :=
  rfl

theorem node?_makeDirectory (place here : Place) : (disk.makeDirectory place).node? here =
    if here <:+ place then some ((disk.node? here).getD .directory) else disk.node? here := by
  induction place with
  | nil =>
    split
    · rename_i hsuffix
      rw [List.suffix_nil.mp hsuffix]
      rfl
    · rfl
  | cons name above ih =>
    -- making what lies above leaves the place itself as it was
    have hnot : ¬ name :: above <:+ above := fun h => Nat.not_succ_le_self _ h.length_le
    by_cases hhere : here = name :: above
    · subst hhere
      rw [if_neg hnot] at ih
      rw [makeDirectory_cons, if_pos List.suffix_rfl, ih]
      cases hnode : disk.node? (name :: above) with
      | some node => exact ih.trans hnode
      | none => exact (node?_put (List.cons_ne_nil _ _)).trans (if_pos rfl)
    · have hsuffix : here <:+ name :: above ↔ here <:+ above :=
        List.suffix_cons_iff.trans (or_iff_right hhere)
      simp only [hsuffix]
      rw [makeDirectory_cons, ← ih]
      split
      · rfl
      · exact (node?_put (List.cons_ne_nil _ _)).trans (if_neg hhere)

def IsFree (disk : Disk) (place : Place) : Prop :=
  ∀ here ∈ Place.upTo [] place, disk.isRegular here = false

instance (disk : Disk) (place : Place) : Decidable (disk.IsFree place) :=
  inferInstanceAs (Decidable (∀ here ∈ Place.upTo [] place, disk.isRegular here = false))

theorem IsFree.isDirectory_makeDirectory (h : disk.IsFree place) (hhere : here <:+ place) :
    (disk.makeDirectory place).isDirectory here = true := by
  rw [isDirectory_iff, node?_makeDirectory, if_pos hhere]
  cases hnode : disk.node? here with
  | none => rfl
  | some node =>
    have hregular := h here (Place.mem_upTo.mpr ⟨List.nil_suffix, by rwa [List.append_nil]⟩)
    unfold isRegular at hregular
    rw [hnode] at hregular
    cases node with
    | directory => rfl
    | file content => cases hregular
    | lockedFile => cases hregular

namespace IsTree

variable (htree : disk.IsTree)
include htree

theorem makeDirectory : ∀ {place : Place}, (∀ name ∈ place, IsFileName name) → disk.IsFree place →
    (disk.makeDirectory place).IsTree
  | [], _, _ => htree
  | name :: above, hnames, hfree => by
    obtain ⟨hname, hnames⟩ := List.forall_mem_cons.mp hnames
    have hfree' : disk.IsFree above := fun here hhere => hfree here (List.mem_cons_of_mem _ hhere)
    have htree' := makeDirectory hnames hfree'
    rw [makeDirectory_cons]
    split
    · exact htree'
    · exact htree'.put (hfree'.isDirectory_makeDirectory List.suffix_rfl) hname (.inl rfl)

theorem make {above : Place} (hnames : ∀ n ∈ name :: above, IsFileName n) (hfree : disk.IsFree above)
    (hnot : disk.isDirectory (name :: above) = false) (node : Node) :
    (disk.make (name :: above) node).IsTree := by
  obtain ⟨hname, hnames⟩ := List.forall_mem_cons.mp hnames
  refine (htree.makeDirectory hnames hfree).put (hfree.isDirectory_makeDirectory List.suffix_rfl) hname (.inr ?_)
  have hnode := disk.node?_makeDirectory above (name :: above)
  rw [if_neg fun h => Nat.not_succ_le_self _ h.length_le] at hnode
  unfold isDirectory at hnot ⊢
  rw [hnode]
  exact hnot

theorem workIn (hnames : ∀ name ∈ place, IsFileName name) (hfree : disk.IsFree place) : (disk.workIn place).IsTree := by
  have hmade := htree.makeDirectory hnames hfree
  refine ⟨hmade.parent, hmade.name, fun h => ?_⟩
  obtain rfl := Option.some.inj h
  exact hfree.isDirectory_makeDirectory List.suffix_rfl

end IsTree

theorem isTree_empty : empty.IsTree := by
  have hnone {name : Bytes} {above : Place} : empty.node? (name :: above) = none := Std.TreeMap.getElem?_emptyc
  refine ⟨fun h => ?_, fun h => ?_, fun h => Option.some.inj h ▸ rfl⟩
  · rw [hnone] at h
    cases h
  · rw [hnone] at h
    cases h

/-! ## Removing -/

theorem node?_remove (top : Place) {above : Place} : (disk.remove top).node? (name :: above) =
    if top.isUnder (name :: above) then none else disk.node? (name :: above) := by
  show (disk.nodes.filter fun place _ => ! top.isUnder place)[name :: above]? =
    if _ then none else disk.nodes[name :: above]?
  rw [Std.TreeMap.getElem?_filter]
  simp only [Std.TreeMap.getKey_eq]
  cases top.isUnder (name :: above) <;> cases disk.nodes[name :: above]? <;> rfl

theorem IsTree.remove (htree : disk.IsTree) (top : Place) : (disk.remove top).IsTree := by
  have hold {name : Bytes} {above : Place} (h : ((disk.remove top).node? (name :: above)).isSome) :
      ¬ top.isUnder (name :: above) = true ∧ (disk.node? (name :: above)).isSome := by
    rw [node?_remove] at h
    split at h
    · cases h
    · exact ⟨‹_›, h⟩
  have hkept {here : Place} (hnot : ¬ top.isUnder here = true) (h : disk.isDirectory here = true) :
      (disk.remove top).isDirectory here = true := by
    cases here with
    | nil => rfl
    | cons name above =>
      rw [isDirectory_iff, node?_remove, if_neg hnot]
      exact isDirectory_iff.mp h
  refine ⟨fun h => ?_, fun h => htree.name (hold h).2, fun h => ?_⟩
  · obtain ⟨hnot, hnode⟩ := hold h
    refine hkept (fun hunder => hnot ?_) (htree.parent hnode)
    exact List.isSuffixOf_iff_suffix.mpr ((List.isSuffixOf_iff_suffix.mp hunder).trans (List.suffix_cons _ _))
  · obtain ⟨hcwd, hnot⟩ := Option.filter_eq_some_iff.mp h
    exact hkept (by simpa using hnot) (htree.cwd hcwd)

end Disk

end ElmImports
