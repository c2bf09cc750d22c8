import ElmImports.Proofs.Lists.Firsts
import ElmImports.Proofs.Path.Normal

/-!
# Sets of normal paths

A set whose paths are all normal is known by the list of its paths: a normal path is found in the set when
it is in the list, and putting one in adds it to the list. Normal paths that are equal are the same, so that
leaving out repetitions loses none of a list of them.
-/

namespace ElmImports

/-! ## Lists of normal paths -/

section
variable {ps : List Path} (hps : ∀ p ∈ ps, p.IsNormal)
include hps

theorem eraseDups_of_normal (hnodup : ps.Nodup) : ps.eraseDups = ps := by
  refine eraseDups_of_pairwise (hnodup.imp_of_mem fun {p q} hp hq hne => ?_)
  rw [Bool.eq_false_iff]
  exact fun hbeq => hne ((hps q hq).eq_of_beq (hps p hp) hbeq).symm

theorem contains_of_normal {p : Path} (hp : p.IsNormal) : ps.contains p = true ↔ p ∈ ps := by
  rw [List.contains_iff_exists_mem_beq]
  constructor
  · rintro ⟨q, hq, hbeq⟩
    rwa [hp.eq_of_beq (hps q hq) hbeq]
  · exact fun hp => ⟨p, hp, BEq.rfl⟩

theorem mem_eraseDups_of_normal {p : Path} : p ∈ ps.eraseDups ↔ p ∈ ps := by
  refine ⟨fun hp => (eraseDups_sublist ps).subset hp, fun hp => ?_⟩
  have hfirsts : ∀ q ∈ ps.eraseDups, q.IsNormal := fun q hq => hps q ((eraseDups_sublist ps).subset hq)
  rw [← contains_of_normal hfirsts (hps p hp), contains_eraseDups]
  exact (contains_of_normal hps (hps p hp)).mpr hp

end

/-! ## Sets -/

instance : Std.LawfulBEqCmp (compare : Path → Path → Ordering) where
  compare_eq_iff_beq := by
    intro p q
    rw [Path.compare_eq_iff, Path.beq_iff]

def NormalSet (s : PathSet) : Prop :=
  ∀ p ∈ s.toList, p.IsNormal

theorem toList_subset_insert (s : PathSet) (p : Path) : s.toList ⊆ (s.insert p).toList := by
  intro q hq
  rw [(Std.TreeSet.toList_insert_perm (t := s) (k := p)).mem_iff]
  split
  · exact hq
  · exact List.mem_cons_of_mem _ hq

theorem contains_of_subset {s t : PathSet} (h : s.toList ⊆ t.toList) {p : Path}
    (hp : s.contains p = true) :
    t.contains p = true := by
  rw [← Std.TreeSet.contains_toList, List.contains_iff_exists_mem_beq] at hp ⊢
  obtain ⟨q, hq, he⟩ := hp
  exact ⟨q, h hq, he⟩

theorem contains_eq_of_beq (s : PathSet) (p q : Path) (h : (p == q) = true) : s.contains p = s.contains q :=
  Std.TreeSet.contains_congr (Path.compare_eq_iff.mpr (Path.beq_iff.mp h))

theorem normalSet_empty : NormalSet ∅ := by
  intro p hp
  cases hp

section
variable {s : PathSet} {p q : Path} (hs : NormalSet s)
include hs

theorem contains_iff_mem_toList (hp : p.IsNormal) : s.contains p = true ↔ p ∈ s.toList := by
  rw [← Std.TreeSet.contains_toList]
  exact contains_of_normal hs hp

theorem mem_toList_insert (hp : p.IsNormal) : q ∈ (s.insert p).toList ↔ q = p ∨ q ∈ s.toList := by
  rw [(Std.TreeSet.toList_insert_perm (t := s) (k := p)).mem_iff]
  by_cases hm : p ∈ s
  · rw [if_pos hm]
    have : p ∈ s.toList := (contains_iff_mem_toList hs hp).mp hm
    constructor
    · exact Or.inr
    · rintro (rfl | h)
      · exact this
      · exact h
  · rw [if_neg hm, List.mem_cons]

theorem NormalSet.insert (hp : p.IsNormal) : NormalSet (s.insert p) := by
  intro q hq
  rcases (mem_toList_insert hs hp).mp hq with rfl | hq
  · exact hp
  · exact hs q hq

theorem size_insert_of_not_mem (hp : p.IsNormal) (h : p ∉ s.toList) : (s.insert p).size = s.size + 1 := by
  rw [Std.TreeSet.size_insert, if_neg]
  rwa [contains_iff_mem_toList hs hp]

end

end ElmImports
