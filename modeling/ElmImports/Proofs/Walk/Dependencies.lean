import ElmImports.Proofs.Path.Sets
import ElmImports.Walk.Dependencies

/-!
# The list and the set of dependencies agree

The list holds normal paths, each once, and the set holds the same paths. Inserting appends what is not
there, leaving out keeps the order, and a list of paths is kept as its first occurrences.
-/

namespace ElmImports.Dependencies

structure Valid (d : Dependencies) : Prop where
  normal : ∀ p ∈ d.toList, p.IsNormal
  nodup : d.toList.Nodup
  members : ∀ p, p ∈ d.members.toList ↔ p ∈ d.toList

theorem valid_empty : Valid {} := by
  refine ⟨?_, List.nodup_nil, ?_⟩
  · intro p hp; cases hp
  · intro p; exact Iff.rfl

section
variable {d : Dependencies} (h : d.Valid)
include h

theorem Valid.normalSet : NormalSet d.members :=
  fun p hp => h.normal p ((h.members p).mp hp)

theorem Valid.contains_iff (p : Path) : d.contains p = true ↔ p.normalize ∈ d.toList := by
  unfold contains
  rw [contains_iff_mem_toList h.normalSet p.isNormal_normalize, h.members]

theorem Valid.insert?_eq_none_iff (p : Path) : d.insert? p = none ↔ p.normalize ∈ d.toList := by
  rw [Dependencies.insert?_eq_none_iff, h.contains_iff]

theorem Valid.of_insert? {e : Dependencies} {p : Path} (he : d.insert? p = some e) : e.Valid := by
  have hnot : p.normalize ∉ d.toList := by
    intro hm
    rw [(h.insert?_eq_none_iff p).mpr hm] at he
    cases he
  have hlist := toList_insert? he
  have hmembers : e.members = d.members.insert p.normalize := by
    unfold insert? at he
    dsimp only at he
    split at he
    · cases he
    · cases he; rfl
  refine ⟨?_, ?_, ?_⟩
  · intro q hq
    rw [hlist] at hq
    rcases List.mem_append.mp hq with hq | hq
    · exact h.normal q hq
    · rw [List.mem_singleton.mp hq]; exact p.isNormal_normalize
  · rw [hlist]
    refine List.nodup_append.mpr ⟨h.nodup, by simp, ?_⟩
    rintro q hq r hr rfl
    exact hnot (List.mem_singleton.mp hr ▸ hq)
  · intro q
    rw [hmembers, mem_toList_insert h.normalSet p.isNormal_normalize, hlist, h.members, List.mem_append,
      List.mem_singleton, or_comm]

theorem Valid.insert (p : Path) : (d.insert p).Valid := by
  unfold Dependencies.insert
  cases he : d.insert? p with
  | none => exact h
  | some e => exact h.of_insert? he

theorem Valid.exclude (excluded : PathSet) : (d.exclude excluded).Valid := by
  have hlist := toList_exclude d excluded
  refine ⟨?_, ?_, ?_⟩
  · intro p hp
    rw [hlist] at hp
    exact h.normal p (List.mem_filter.mp hp).1
  · rw [hlist]; exact h.nodup.filter _
  · intro p
    rw [hlist, List.mem_filter, ← h.members]
    show p ∈ (d.members.filter (! excluded.contains ·)).toList ↔ _
    rw [Std.TreeSet.toList_filter, List.mem_filter]

end

theorem Valid.insertAll : ∀ {ps : List Path} {d : Dependencies}, d.Valid → (d.insertAll ps).Valid
  | [], _, h => h
  | p :: _, _, h => (h.insert p).insertAll

theorem valid_ofList (ps : List Path) : (ofList ps).Valid :=
  valid_empty.insertAll

theorem Valid.eraseDups_toList {d : Dependencies} (h : d.Valid) : d.toList.eraseDups = d.toList :=
  eraseDups_of_normal h.normal h.nodup

/-- A path comes behind what is there, unless it is there already. -/
theorem Valid.toList_insert {d : Dependencies} (h : d.Valid) (p : Path) :
    (d.insert p).toList = (d.toList ++ [p.normalize]).eraseDups := by
  have hcontains : d.toList.contains p.normalize = d.contains p := by
    rw [Bool.eq_iff_iff, h.contains_iff, contains_of_normal h.normal p.isNormal_normalize]
  rw [eraseDups_concat, h.eraseDups_toList, hcontains]
  unfold Dependencies.insert
  cases he : d.insert? p with
  | none => rw [Dependencies.insert?_eq_none_iff.mp he, if_pos rfl, Option.getD_none]
  | some e =>
    have hnew : ¬ d.contains p = true := by
      rw [← Dependencies.insert?_eq_none_iff, he]
      exact nofun
    rw [if_neg hnew, Option.getD_some, toList_insert? he]

theorem Valid.toList_insertAll : ∀ {ps : List Path} {d : Dependencies}, d.Valid →
    (d.insertAll ps).toList = (d.toList ++ ps.map Path.normalize).eraseDups
  | [], d, h => by
    rw [List.map_nil, List.append_nil, h.eraseDups_toList]
    rfl
  | p :: ps, d, h => by
    rw [show d.insertAll (p :: ps) = (d.insert p).insertAll ps from rfl, (h.insert p).toList_insertAll,
      h.toList_insert, eraseDups_append_eraseDups, List.append_assoc]
    rfl

theorem toList_ofList (ps : List Path) : (ofList ps).toList = (ps.map Path.normalize).eraseDups :=
  valid_empty.toList_insertAll

theorem mem_ofList {ps : List Path} {p : Path} : p ∈ (ofList ps).toList ↔ p ∈ ps.map Path.normalize := by
  rw [toList_ofList]
  refine mem_eraseDups_of_normal fun q hq => ?_
  obtain ⟨q, -, rfl⟩ := List.mem_map.mp hq
  exact q.isNormal_normalize

end ElmImports.Dependencies
