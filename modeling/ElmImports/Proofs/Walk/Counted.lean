import ElmImports.Proofs.Graph.Summary
import ElmImports.Proofs.Walk.Closure

/-!
# Edges count import lines

Every file is scanned once, so that its import lines are entered once: as often as a line of a visited file goes
to a target, the edge between the two has been recorded. This fails on the way for targets that are unreadable
already, whose imports are skipped, and these are left out of a report.
-/

namespace ElmImports

namespace Project

/-- How many import lines of `f` go to `t`. -/
def importCount (P : Project) (base f t : Path) : Nat :=
  ((P.disk.importLines? P.chunk f).getD []).countP fun line =>
    (ModuleName.ofImportLine? line).any fun m => (P.target base m {}).1 == t

section
variable {P : Project} {base file f t : Path} {r r' : Resolution} {lines : List Text} {new : List Path}

theorem importCount_eq (hl : P.disk.importLines? P.chunk f = some lines) :
    P.importCount base f t = (P.targetsIn base (P.sourceRoots P.disk base) lines).count t := by
  unfold importCount targetsIn
  rw [hl, Option.getD_some, List.count, List.countP_filterMap]
  refine List.countP_congr fun line _ => ?_
  cases ModuleName.ofImportLine? line with
  | none => rfl
  | some m => rw [Option.any_some, target_empty]; rfl

/-! ## What is recorded -/

structure Counted (P : Project) (base : Path) (r : Resolution) : Prop where
  roots : r.rootsOf P base = P.sourceRoots P.disk base
  importer : ∀ e ∈ r.edges.toList, e.1 ∈ r.visited.toList
  counts : ∀ f ∈ r.visited.toList, ∀ t, t.IsNormal → t ∉ r.unreadable.toList →
    r.edges.toList.count (f, t) = P.importCount base f t

theorem counted_empty (P : Project) (base : Path) : Counted P base {} :=
  ⟨rootsOf_of_roots_empty rfl, nofun, nofun⟩

theorem count_map_pair (file f t : Path) (ts : List Path) :
    (ts.map (file, ·)).count (f, t) = if file == f then ts.count t else 0 := by
  induction ts with
  | nil => simp
  | cons t' ts ih =>
    have hpair : (((file, t') : Path × Path) == (f, t)) = (file == f && t' == t) := rfl
    rw [List.map_cons, List.count_cons, List.count_cons, ih, hpair]
    by_cases h : (file == f) = true <;> simp [h]

theorem Counted.count_of_not_visited (h : Counted P base r) (hr : WellFormed P r) (hf : f.IsNormal)
    (hv : f ∉ r.visited.toList) : r.edges.toList.count (f, t) = 0 := by
  refine List.countP_eq_zero.mpr fun e he hbeq => hv ?_
  have hvisited := h.importer e he
  rwa [(hr.visited _ hvisited).eq_of_beq hf (beq_pair_iff.mp hbeq).1] at hvisited

theorem count_filter_readable (hr : WellFormed P r) (ht : t.IsNormal) (hu : t ∉ r.unreadable.toList) (ts : List Path) :
    (ts.filter (! r.unreadable.contains ·)).count t = ts.count t := by
  rw [List.count, List.countP_filter]
  refine List.countP_congr fun t' _ => ?_
  rw [Bool.and_eq_true]
  -- what equals a readable path is readable
  refine and_iff_left_of_imp fun h => ?_
  rw [contains_eq_of_beq _ _ _ h]
  exact (hr.not_contains_unreadable ht).mpr hu

theorem Counted.enter (h : Counted P base r) (hr : WellFormed P r) (hf : file.IsNormal) (hv : file ∉ r.visited.toList)
    (hl : P.disk.importLines? P.chunk file = some lines) (he : Entered P base file (r.mark file) lines r' new) :
    Counted P base r' := by
  have hroots : (r.mark file).rootsOf P base = P.sourceRoots P.disk base :=
    (grows_mark P base r file).roots.trans h.roots
  have hvisited {p : Path} := he.mem_visited hr hf (p := p)
  refine ⟨he.roots.trans hroots, ?_, ?_⟩
  · intro e hm
    rw [he.edges] at hm
    rcases List.mem_append.mp hm with hm | hm
    · exact hvisited.mpr (.inr (h.importer e hm))
    · obtain ⟨t, -, rfl⟩ := List.mem_map.mp hm
      exact hvisited.mpr (.inl rfl)
  · intro f hfv t ht hu
    rw [he.unreadable] at hu
    have hkept : (P.keptTargets base (r.mark file) lines).count t = P.importCount base file t := by
      rw [importCount_eq hl, keptTargets, hroots]
      exact count_filter_readable (hr.mark hf) ht hu _
    rw [he.edges, List.count_append, count_map_pair]
    rcases hvisited.mp hfv with rfl | hfv
    -- nothing was recorded for the file before, and nothing is recorded now for any other
    · rw [show (r.mark f).edges = r.edges from rfl, h.count_of_not_visited hr hf hv, if_pos BEq.rfl, hkept,
        Nat.zero_add]
    · have hne : ¬ (file == f) = true := by
        intro hbeq
        rw [hf.eq_of_beq (hr.visited f hfv) hbeq] at hv
        exact hv hfv
      rw [if_neg hne, Nat.add_zero]
      exact h.counts f hfv t ht hu

theorem importCount_of_unscannable (hl : P.disk.importLines? P.chunk f = none) : P.importCount base f t = 0 := by
  unfold importCount
  rw [hl]
  rfl

theorem Counted.mark_unscannable (h : Counted P base r) (hr : WellFormed P r) (hf : file.IsNormal)
    (hv : file ∉ r.visited.toList) (hl : P.disk.importLines? P.chunk file = none) : Counted P base (r.mark file) := by
  refine ⟨(grows_mark P base r file).roots.trans h.roots, ?_, ?_⟩
  · exact fun e he => toList_subset_insert _ _ (h.importer e he)
  · intro f hfv t ht hu
    rcases (hr.mem_mark hf).mp hfv with rfl | hfv
    · rw [importCount_of_unscannable hl]
      exact h.count_of_not_visited hr hf hv
    · exact h.counts f hfv t ht hu

theorem Counted.setAside (h : Counted P base r) (file : Path) : Counted P base (r.setAside file) where
  roots := (grows_setAside P base r file).roots.trans h.roots
  importer := h.importer
  counts f hf t ht hu := h.counts f hf t ht fun hm => hu (toList_subset_insert _ _ hm)

theorem preserved_counted (P : Project) (base : Path) : Preserved P base (fun _ _ => True) (Counted P base) where
  may _ _ _ _ := trivial
  failed hr hf hv hl _ h := (h.mark_unscannable hr hf.normal hv hl).setAside _
  entered hr hf hv hl he _ h := ⟨h.enter hr hf hv hl he, fun _ _ => trivial⟩
  dropped _ h := ⟨(grows_dropUnreadable P base _).roots.trans h.roots, h.importer, h.counts⟩

/-! ## What is reported -/

theorem counted_visit (P : Project) (base entry : Path) : Counted P base (P.visit base entry {}).resolution := by
  have hempty := wellFormed_empty P
  have he := entry.isNormal_normalize
  refine (preserved_counted P base).visits (P.visits_visit base entry {}) hempty he trivial (counted_empty P base)
    fun hn hl => ?_
  exact (counted_empty P base).mark_unscannable hempty he hn hl

end

end Project

end ElmImports
