import ElmImports.Proofs.Path.Join
import ElmImports.Proofs.Walk.Closure
import ElmImports.Proofs.Walk.Scanned

/-!
# Visits one after another make a union

Files are visited in turn, each visit going on from what those before it found. A visit is cut short wherever an
earlier one has been, but everything below such a file was found then. In the end there is what walks from each of
the files report, whatever the order, and the list of dependencies only ever gets longer.
-/

namespace ElmImports

/-! ## The spelling of a base directory -/

theorem ModuleName.pathUnder_congr (m : ModuleName) (layout : Layout) {dir dir' : Path} (h : dir.steps = dir'.steps) :
    m.pathUnder dir layout = m.pathUnder dir' layout := by
  unfold pathUnder
  cases ha : (m.relativePath layout).isAbsolute with
  | true => rw [Path.join_of_isAbsolute ha, Path.join_of_isAbsolute ha]
  | false =>
    apply Path.normalize_eq_of_steps_eq
    rw [Path.steps_join ha, Path.steps_join ha, h]

theorem ModuleName.pathUnder_normalize (m : ModuleName) (dir : Path) (layout : Layout) :
    m.pathUnder dir.normalize layout = m.pathUnder dir layout :=
  m.pathUnder_congr layout dir.steps_normalize

namespace Project

section
variable {P : Project} {base : Path}

theorem rootHolding?_eq {m : ModuleName} (h : ¬ P.disk.isFile (m.pathUnder base P.layout) = true) (roots : List Path) :
    P.disk.rootHolding? roots m base P.layout = roots.find? fun root => P.disk.isFile (m.pathUnder root P.layout) := by
  unfold Disk.rootHolding?
  congr 1
  funext root
  cases hb : root == base with
  -- a root that is the base directory does not hold the module either
  | true =>
    have hsame : m.pathUnder root P.layout = m.pathUnder base P.layout :=
      m.pathUnder_congr P.layout (congrArg (List.foldl Path.follow []) (Path.beq_iff.mp hb))
    rw [hsame, Bool.eq_false_iff.mpr h, Bool.and_false]
  | false => simp [bne, hb]

theorem targetIn_normalize (P : Project) (base : Path) (roots : List Path) (m : ModuleName) :
    P.targetIn base.normalize roots m = P.targetIn base roots m := by
  have hhere := m.pathUnder_normalize base P.layout
  unfold targetIn
  rw [hhere]
  by_cases h : P.disk.isFile (m.pathUnder base P.layout) = true
  · rw [if_pos h, if_pos h]
  · rw [if_neg h, if_neg h, rootHolding?_eq h, rootHolding?_eq (hhere ▸ h)]

theorem imports_normalize (hroots : P.sourceRoots P.disk base = P.sourceRoots P.disk base.normalize) (f t : Path) :
    P.Imports base.normalize f t ↔ P.Imports base f t := by
  unfold Imports
  simp only [target_empty, targetIn_normalize, hroots]

theorem Reached.mono {base' entry f : Path} (himports : ∀ f t, P.Imports base f t → P.Imports base' f t)
    (h : P.Reached base entry [] [] f) : P.Reached base' entry [] [] f := by
  induction h with
  | entry hl => exact .entry hl
  | step _ hi hs hl hk hv ih => exact .step ih (himports _ _ hi) hs hl hk hv

end

/-! ## What visits from several files find -/

/-- An import of a file that a walk from one of `entries` enters goes to `t`. -/
def Found (P : Project) (base : Path) (entries : List Path) (t : Path) : Prop :=
  ∃ e ∈ entries, ∃ f, P.Reached base e [] [] f ∧ P.Imports base f t

structure Gathered (P : Project) (base : Path) (entries : List Path) (r : Resolution) : Prop where
  roots : r.rootsOf P base = P.sourceRoots P.disk base
  found : ∀ t, t ∈ r.known.toList ∨ t ∈ r.unreadable.toList → P.Found base entries t
  closed : ∀ f ∈ r.visited.toList, ∀ t, P.Imports base f t → t ∈ r.known.toList ∨ t ∈ r.unreadable.toList
  tried : ∀ p ∈ r.visited.toList, P.disk.importLines? P.chunk p ≠ none ∨ p ∈ r.unreadable.toList

structure Summoned (P : Project) (base : Path) (entries : List Path) (p : Path) : Prop where
  reached : P.disk.importLines? P.chunk p ≠ none → ∃ e ∈ entries, P.Reached base e [] [] p
  found : P.disk.importLines? P.chunk p = none → P.Found base entries p

section
variable {P : Project} {base file : Path} {entries new : List Path} {r r' : Resolution} {lines : List Text}

theorem gathered_empty (P : Project) (base : Path) (entries : List Path) : Gathered P base entries {} where
  roots := rootsOf_of_roots_empty rfl
  found := nofun
  closed := nofun
  tried := nofun

theorem Gathered.failed_visit (h : Gathered P base entries r) (hr : WellFormed P r) (hf : file.IsNormal)
    (hl : P.disk.importLines? P.chunk file = none) (hfile : P.Found base entries file) :
    Gathered P base entries ((r.mark file).setAside file) := by
  have hvisited {p : Path} := hr.mem_mark hf (p := p)
  have hunreadable {p : Path} := (hr.mark hf).mem_setAside hf (p := p)
  refine ⟨?_, ?_, ?_, ?_⟩
  · exact ((grows_mark P base r file).trans (grows_setAside P base _ file)).roots.trans h.roots
  · intro t ht
    rcases ht with hk | hu
    · exact h.found t (.inl hk)
    · rcases hunreadable.mp hu with rfl | hu
      · exact hfile
      · exact h.found t (.inr hu)
  · intro f hf t ht
    rcases hvisited.mp hf with rfl | hf
    · obtain ⟨lines, hl', -⟩ := ht
      exact nomatch hl.symm.trans hl'
    · exact (h.closed f hf t ht).imp_right fun hu => hunreadable.mpr (.inr hu)
  · intro p hp
    rcases hvisited.mp hp with rfl | hp
    · exact .inr (hunreadable.mpr (.inl rfl))
    · exact (h.tried p hp).imp_right fun hu => hunreadable.mpr (.inr hu)

theorem Gathered.imports_iff (h : Gathered P base entries r) (hl : P.disk.importLines? P.chunk file = some lines)
    {t : Path} : P.Imports base file t ↔ t ∈ P.targetsIn base ((r.mark file).rootsOf P base) lines := by
  rw [(grows_mark P base r file).roots, h.roots]
  exact imports_iff_mem_targetsIn hl

theorem Gathered.enter (h : Gathered P base entries r) (hr : WellFormed P r) (hf : file.IsNormal)
    (hl : P.disk.importLines? P.chunk file = some lines) (he : Entered P base file (r.mark file) lines r' new)
    (hreached : ∃ e ∈ entries, P.Reached base e [] [] file) : Gathered P base entries r' := by
  have hmark := hr.mark hf
  have hknown {t : Path} := he.mem_known (t := t)
  have hvisited {p : Path} := he.mem_visited hr hf (p := p)
  have hunreadable : r'.unreadable = r.unreadable := he.unreadable
  refine ⟨?_, ?_, ?_, ?_⟩
  · exact ((grows_mark P base r file).trans he.grows).roots.trans h.roots
  · intro t ht
    rw [hunreadable, hknown, or_right_comm] at ht
    rcases ht with ht | ht
    · exact h.found t ht
    · obtain ⟨e, hmem, hreached⟩ := hreached
      have htarget := (hmark.mem_keptTargets.mp (he.new_kept t ht)).1
      exact ⟨e, hmem, file, hreached, (h.imports_iff hl).mpr htarget⟩
  -- an import that is not kept goes to what is unreadable already
  · intro f hfv t ht
    rw [hunreadable]
    rcases hvisited.mp hfv with rfl | hfv
    · by_cases hu : t ∈ r.unreadable.toList
      · exact .inr hu
      · exact .inl (he.covers hmark.known t (hmark.mem_keptTargets.mpr ⟨(h.imports_iff hl).mp ht, hu⟩))
    · exact (h.closed f hfv t ht).imp_left fun hk => hknown.mpr (.inl hk)
  · intro p hp
    rw [hunreadable]
    rcases hvisited.mp hp with rfl | hp
    · exact .inl (by rw [hl]; exact nofun)
    · exact h.tried p hp

theorem Gathered.dropUnreadable (h : Gathered P base entries r) (hr : WellFormed P r) :
    Gathered P base entries r.dropUnreadable := by
  refine { h with roots := ?_, found := ?_, closed := ?_ }
  · exact (grows_dropUnreadable P base r).roots.trans h.roots
  · exact fun t ht => h.found t (ht.imp_left fun hk => (hr.mem_dropUnreadable.mp hk).1)
  · intro f hf t ht
    by_cases hu : t ∈ r.unreadable.toList
    · exact .inr hu
    · exact .inl (hr.mem_dropUnreadable.mpr ⟨(h.closed f hf t ht).resolve_right hu, hu⟩)

theorem preserved_gathered (P : Project) (base : Path) (entries : List Path) :
    Preserved P base (fun _ => Summoned P base entries) (Gathered P base entries) where
  may _ _ _ h := h
  failed hr hf _ hl hm h := h.failed_visit hr hf.normal hl (hm.found hl)
  entered {r file lines r' new} hr hf _ hl he hm h := by
    obtain ⟨e, hmem, hreached⟩ := hm.reached (by rw [hl]; exact nofun)
    refine ⟨h.enter hr hf hl he ⟨e, hmem, hreached⟩, fun p hp => ?_⟩
    obtain ⟨hnew, hs⟩ := List.mem_filter.mp hp
    have himports : P.Imports base file p :=
      (h.imports_iff hl).mpr ((hr.mark hf).mem_keptTargets.mp (he.new_kept p hnew)).1
    refine ⟨fun hscannable => ⟨e, hmem, ?_⟩, fun _ => ⟨e, hmem, file, hreached, himports⟩⟩
    exact .step hreached himports hs hscannable List.not_mem_nil List.not_mem_nil
  dropped hr h := h.dropUnreadable hr

/-! ## A list of files -/

theorem Gathered.visit (h : Gathered P base entries r) (hs : Settled P r) (hmem : file.normalize ∈ entries)
    (hl : P.disk.importLines? P.chunk file.normalize ≠ none) :
    Gathered P base entries (P.visit base file r).resolution := by
  have hsummoned : Summoned P base entries file.normalize :=
    ⟨fun _ => ⟨file.normalize, hmem, .entry hl⟩, fun hnone => absurd hnone hl⟩
  exact (preserved_gathered P base entries).visits (P.visits_visit base file r) hs.wellFormed file.isNormal_normalize
    hsummoned h fun _ hnone => absurd hnone hl

theorem afterVisits_append (P : Project) (calls calls' : List (Path × Path)) (r : Resolution) :
    P.afterVisits (calls ++ calls') r = P.afterVisits calls' (P.afterVisits calls r) :=
  List.foldl_append

theorem visited_afterVisits (P : Project) : ∀ (calls : List (Path × Path)) (r : Resolution),
    r.visited.toList ⊆ (P.afterVisits calls r).visited.toList
  | [], _ => List.Subset.refl _
  | (base, file) :: calls, r =>
    List.Subset.trans (P.visits_visit base file r).grows.visited (visited_afterVisits P calls _)

theorem Gathered.afterVisits : ∀ {files : List Path} {r : Resolution}, Gathered P base entries r → Settled P r →
    (∀ e ∈ files, e.normalize ∈ entries ∧ P.disk.importLines? P.chunk e.normalize ≠ none) →
    Gathered P base entries (P.afterVisits (files.map (base, ·)) r) ∧
      files.map Path.normalize ⊆ (P.afterVisits (files.map (base, ·)) r).visited.toList
  | [], _, h, _, _ => ⟨h, List.nil_subset _⟩
  | e :: files, r, h, hs, hfiles => by
    obtain ⟨⟨hmem, hl⟩, hrest⟩ := List.forall_mem_cons.mp hfiles
    obtain ⟨hgathered, hvisited⟩ := Gathered.afterVisits (h.visit hs hmem hl) (hs.visit base e) hrest
    refine ⟨hgathered, List.cons_subset.mpr ⟨?_, hvisited⟩⟩
    apply visited_afterVisits P (files.map (base, ·))
    exact (P.visits_visit base e r).mem_visited hs.wellFormed e.isNormal_normalize

/-! ## What has been found in the end -/

/-- Nothing that a walk from one of the entries would find is left to find. -/
structure Exhausted (P : Project) (base : Path) (entries : List Path) (r : Resolution) : Prop where
  settled : Settled P r
  gathered : Gathered P base entries r
  visited : entries ⊆ r.visited.toList

theorem exhausted_afterVisits {files : List Path} (base : Path)
    (h : ∀ e ∈ files, P.disk.importLines? P.chunk e.normalize ≠ none) :
    Exhausted P base (files.map Path.normalize) (P.afterVisits (files.map (base, ·)) {}) := by
  have hfiles : ∀ e ∈ files, e.normalize ∈ files.map Path.normalize ∧
      P.disk.importLines? P.chunk e.normalize ≠ none :=
    fun e he => ⟨List.mem_map_of_mem he, h e he⟩
  obtain ⟨hgathered, hvisited⟩ := (gathered_empty P base _).afterVisits (settled_empty P) hfiles
  exact ⟨(settled_empty P).afterVisits _, hgathered, hvisited⟩

theorem Exhausted.reached_visited (h : Exhausted P base entries r) {e f : Path} (he : e ∈ entries)
    (hf : P.Reached base e [] [] f) : f ∈ r.visited.toList := by
  induction hf with
  | entry _ => exact h.visited he
  | @step f t _ himports hs hscannable _ _ ih =>
    rcases h.gathered.closed f ih t himports with hk | hu
    · exact h.settled.sources t hk hs
    · exact absurd (h.settled.wellFormed.failed t hu) hscannable

theorem Exhausted.found_iff (h : Exhausted P base entries r) {t : Path} :
    P.Found base entries t ↔ t ∈ r.known.toList ∨ t ∈ r.unreadable.toList := by
  constructor
  · rintro ⟨e, he, f, hf, himports⟩
    exact h.gathered.closed f (h.reached_visited he hf) t himports
  · exact h.gathered.found t

def Missing (P : Project) (t : Path) : Prop :=
  P.layout.isSourceFile t = true ∧ P.disk.importLines? P.chunk t = none

theorem Exhausted.not_missing_of_mem_known (h : Exhausted P base entries r) {t : Path} (ht : t ∈ r.known.toList) :
    ¬ P.Missing t := by
  rintro ⟨hs, hl⟩
  rcases h.gathered.tried t (h.settled.sources t ht hs) with hscannable | hu
  · exact hscannable hl
  · exact h.settled.apart t ht hu

theorem Exhausted.missing_of_mem_unreadable (h : Exhausted P base entries r) {t : Path}
    (ht : t ∈ r.unreadable.toList) : P.Missing t :=
  ⟨h.settled.wellFormed.source t ht, h.settled.wellFormed.failed t ht⟩

theorem Exhausted.mem_known_iff (h : Exhausted P base entries r) {t : Path} :
    t ∈ r.known.toList ↔ P.Found base entries t ∧ ¬ P.Missing t := by
  rw [h.found_iff]
  constructor
  · exact fun ht => ⟨.inl ht, h.not_missing_of_mem_known ht⟩
  · exact fun ⟨ht, hnot⟩ => ht.resolve_right fun hu => hnot (h.missing_of_mem_unreadable hu)

theorem Exhausted.mem_unreadable_iff (h : Exhausted P base entries r) {t : Path} :
    t ∈ r.unreadable.toList ↔ P.Found base entries t ∧ P.Missing t := by
  rw [h.found_iff]
  constructor
  · exact fun ht => ⟨.inr ht, h.missing_of_mem_unreadable ht⟩
  · exact fun ⟨ht, hmissing⟩ => ht.resolve_left fun hk => h.not_missing_of_mem_known hk hmissing

/-! ## The list of dependencies grows -/

structure Keeps (P : Project) (given : List Path) (r : Resolution) : Prop where
  kept : given <+: r.known.toList
  visited : ∀ p ∈ given, P.layout.isSourceFile p = true → p ∈ r.visited.toList
  readable : ∀ p ∈ given, p ∉ r.unreadable.toList

variable {given : List Path}

theorem Keeps.mark (h : Keeps P given r) (file : Path) : Keeps P given (r.mark file) where
  kept := h.kept
  visited p hp hs := toList_subset_insert _ _ (h.visited p hp hs)
  readable := h.readable

theorem Keeps.failed_visit (h : Keeps P given r) (hr : WellFormed P r) (hf : Visitable P file)
    (hv : file ∉ r.visited.toList) (hl : P.disk.importLines? P.chunk file = none) :
    Keeps P given ((r.mark file).setAside file) := by
  refine { h.mark file with readable := ?_ }
  intro p hp hu
  rcases ((hr.mark hf.normal).mem_setAside hf.normal).mp hu with rfl | hu
  -- what is set aside had not been visited, as every source that is to be kept has
  · exact hv (h.visited p hp (hf.source hl))
  · exact h.readable p hp hu

theorem Keeps.enter (h : Keeps P given r) (he : Entered P base file r lines r' new) : Keeps P given r' := by
  refine ⟨?_, ?_, ?_⟩
  · rw [he.known]
    exact h.kept.trans (List.prefix_append _ _)
  · rw [he.visited]
    exact h.visited
  · rw [he.unreadable]
    exact h.readable

theorem Keeps.dropUnreadable (h : Keeps P given r) (hr : WellFormed P r) : Keeps P given r.dropUnreadable := by
  refine { h with kept := ?_ }
  obtain ⟨new, hnew⟩ := h.kept
  refine ⟨new.filter (! r.unreadable.contains ·), ?_⟩
  have hgiven : given.filter (! r.unreadable.contains ·) = given := by
    refine List.filter_eq_self.mpr fun p hp => ?_
    exact (hr.not_contains_unreadable (hr.known.normal p (h.kept.subset hp))).mpr (h.readable p hp)
  show _ = (r.known.exclude r.unreadable).toList
  rw [Dependencies.toList_exclude, ← hnew, List.filter_append, hgiven]

theorem preserved_keeps (P : Project) (base : Path) (given : List Path) :
    Preserved P base (fun _ _ => True) (Keeps P given) where
  may _ _ _ _ := trivial
  failed hr hf hv hl _ h := h.failed_visit hr hf hv hl
  entered {_ file _ _ _} _ _ _ _ he _ h := ⟨(h.mark file).enter he, fun _ _ => trivial⟩
  dropped hr h := h.dropUnreadable hr

theorem Settled.prefix_visit (h : Settled P r) (base file : Path) :
    r.known.toList <+: (P.visit base file r).resolution.known.toList := by
  have hkeeps : Keeps P r.known.toList r := ⟨List.prefix_refl _, h.sources, h.apart⟩
  have hv := P.visits_visit base file r
  exact ((preserved_keeps P base _).visits hv h.wellFormed file.isNormal_normalize trivial hkeeps
    fun _ _ => hkeeps.mark _).kept

end

/-! ## Walks from each of the files -/

section
variable {P : Project} {base e t : Path} {files : List Path}

theorem exists_walk (P : Project) (base e : Path) {p : Report → Prop} :
    (∃ report, P.walk e (some base) = .ok report ∧ p report) ↔
      p ((P.visit base.normalize e {}).resolution.report e.normalize base.normalize) := by
  have hwalk : P.walk e (some base) = _ := walk_of_baseOf rfl
  constructor
  · rintro ⟨report, hreport, h⟩
    rw [hwalk] at hreport
    cases hreport
    exact h
  · exact fun h => ⟨_, hwalk, h⟩

theorem found_normalize (hroots : P.sourceRoots P.disk base = P.sourceRoots P.disk base.normalize)
    (entries : List Path) (t : Path) : P.Found base.normalize entries t ↔ P.Found base entries t := by
  have himports := imports_normalize hroots
  constructor
  · rintro ⟨e, he, f, hf, hi⟩
    exact ⟨e, he, f, hf.mono fun f t => (himports f t).mp, (himports f t).mp hi⟩
  · rintro ⟨e, he, f, hf, hi⟩
    exact ⟨e, he, f, hf.mono fun f t => (himports f t).mpr, (himports f t).mpr hi⟩

theorem exhausted_visit (base : Path) (hl : P.disk.importLines? P.chunk e.normalize ≠ none) :
    Exhausted P base [e.normalize] (P.visit base e {}).resolution :=
  exhausted_afterVisits base (List.forall_mem_singleton.mpr hl)

/-- Whatever a visit finds besides its first file was imported by a file that it scanned. -/
theorem exists_importer_visit (base e : Path) (h : t ∈ (P.visit base e {}).resolution.known.toList ∨
    t ∈ (P.visit base e {}).resolution.unreadable.toList) :
    ∃ f ∈ (P.visit base e {}).resolution.scanned.toList, P.Imports base f t := by
  by_cases hl : P.disk.importLines? P.chunk e.normalize = none
  · rw [visit_eq, hl] at h
    rcases h with h | h <;> cases h
  · have hexhausted := exhausted_visit base hl
    obtain ⟨e', he, f, hf, himports⟩ := hexhausted.gathered.found t h
    exact ⟨f, ((scannedOnce_visit P base e).visited f).mpr (hexhausted.reached_visited he hf), himports⟩

theorem mem_dependencies_walk (hl : P.disk.importLines? P.chunk e.normalize ≠ none)
    (hroots : P.sourceRoots P.disk base = P.sourceRoots P.disk base.normalize) :
    (∃ report, P.walk e (some base) = .ok report ∧ t ∈ report.dependencies) ↔
      P.Found base [e.normalize] t ∧ ¬ P.Missing t := by
  have h := exhausted_visit base.normalize hl
  rw [exists_walk, dependencies_report h.settled.wellFormed h.settled.apart, h.mem_known_iff, found_normalize hroots]

theorem mem_unreadable_walk (hl : P.disk.importLines? P.chunk e.normalize ≠ none)
    (hroots : P.sourceRoots P.disk base = P.sourceRoots P.disk base.normalize) :
    (∃ report, P.walk e (some base) = .ok report ∧ t ∈ report.unreadable) ↔
      P.Found base [e.normalize] t ∧ P.Missing t := by
  have h := exhausted_visit base.normalize hl
  rw [exists_walk, ← found_normalize hroots]
  exact h.mem_unreadable_iff

theorem found_map_normalize :
    P.Found base (files.map Path.normalize) t ↔ ∃ e ∈ files, P.Found base [e.normalize] t := by
  simp [Found]

theorem mem_known_afterVisits (hl : ∀ e ∈ files, P.disk.importLines? P.chunk e.normalize ≠ none)
    (hroots : P.sourceRoots P.disk base = P.sourceRoots P.disk base.normalize) :
    t ∈ (P.afterVisits (files.map (base, ·)) {}).known.toList ↔
      ∃ e ∈ files, ∃ report, P.walk e (some base) = .ok report ∧ t ∈ report.dependencies := by
  rw [(exhausted_afterVisits base hl).mem_known_iff, found_map_normalize, ← exists_and_right]
  simp only [and_assoc]
  exact exists_congr fun e => and_congr_right fun he => (mem_dependencies_walk (hl e he) hroots).symm

theorem mem_unreadable_afterVisits (hl : ∀ e ∈ files, P.disk.importLines? P.chunk e.normalize ≠ none)
    (hroots : P.sourceRoots P.disk base = P.sourceRoots P.disk base.normalize) :
    t ∈ (P.afterVisits (files.map (base, ·)) {}).unreadable.toList ↔
      ∃ e ∈ files, ∃ report, P.walk e (some base) = .ok report ∧ t ∈ report.unreadable := by
  rw [(exhausted_afterVisits base hl).mem_unreadable_iff, found_map_normalize, ← exists_and_right]
  simp only [and_assoc]
  exact exists_congr fun e => and_congr_right fun he => (mem_unreadable_walk (hl e he) hroots).symm

end

/-- Visiting files one after another finds what walks from each of them report, in any order, and never takes
back or moves a dependency, if the base directory as it is spelled declares the roots of its normal spelling. -/
theorem union_of_walks (P : Project) (base : Path) (files : List Path)
    (hl : ∀ e ∈ files, P.disk.importLines? P.chunk e.normalize ≠ none)
    (hroots : P.sourceRoots P.disk base = P.sourceRoots P.disk base.normalize) :
    let after (files : List Path) := P.afterVisits (files.map (base, ·)) {}
    (∀ t, t ∈ (after files).known.toList ↔
        ∃ e ∈ files, ∃ report, P.walk e (some base) = .ok report ∧ t ∈ report.dependencies) ∧
      (∀ t, t ∈ (after files).unreadable.toList ↔
        ∃ e ∈ files, ∃ report, P.walk e (some base) = .ok report ∧ t ∈ report.unreadable) ∧
      (∀ others, files.Perm others → ∀ t,
        (t ∈ (after others).known.toList ↔ t ∈ (after files).known.toList) ∧
          (t ∈ (after others).unreadable.toList ↔ t ∈ (after files).unreadable.toList)) ∧
      ∀ before e rest, files = before ++ e :: rest →
        (after before).known.toList <+: (after (before ++ [e])).known.toList := by
  have hknown {t : Path} := mem_known_afterVisits (t := t) hl hroots
  have hunreadable {t : Path} := mem_unreadable_afterVisits (t := t) hl hroots
  refine ⟨fun _ => hknown, fun _ => hunreadable, ?_, ?_⟩
  · intro others hperm t
    have hl' : ∀ e ∈ others, P.disk.importLines? P.chunk e.normalize ≠ none :=
      fun e he => hl e (hperm.mem_iff.mpr he)
    rw [mem_known_afterVisits hl' hroots, mem_unreadable_afterVisits hl' hroots, hknown, hunreadable]
    simp only [hperm.mem_iff, and_self]
  · rintro before e rest -
    have hsettled : Settled P (P.afterVisits (before.map (base, ·)) {}) := (settled_empty P).afterVisits _
    dsimp only
    rw [List.map_append, afterVisits_append]
    exact hsettled.prefix_visit base e

def entangledImports : Project :=
  let name (s : String) := Utf8.encode s.toList
  { disk := (Disk.empty.makeFile [name "Main.elm", name "src"]
      (name "import Page\nimport Native.Page\nimport Gone\n")).makeFile
      [name "Page.elm", name "src"] (name "import Main\nimport Lost\nimport Page\n") }

theorem union_of_entangledImports :
    let P := entangledImports
    let base := Path.ofString "src/lib/.."
    let files := [Path.ofString "src/Page.elm", .ofString "src/./Main.elm"]
    let after (files : List Path) := P.afterVisits (files.map (base, ·)) {}
    (∀ e ∈ files, P.disk.importLines? P.chunk e.normalize ≠ none) ∧
      P.sourceRoots P.disk base = P.sourceRoots P.disk base.normalize ∧
      (∀ t, t ∈ (after files).known.toList ↔
        ∃ e ∈ files, ∃ report, P.walk e (some base) = .ok report ∧ t ∈ report.dependencies) ∧
      (∀ t, t ∈ (after files).unreadable.toList ↔
        ∃ e ∈ files, ∃ report, P.walk e (some base) = .ok report ∧ t ∈ report.unreadable) ∧
      (∀ others, files.Perm others → ∀ t,
        (t ∈ (after others).known.toList ↔ t ∈ (after files).known.toList) ∧
          (t ∈ (after others).unreadable.toList ↔ t ∈ (after files).unreadable.toList)) ∧
      ∀ before e rest, files = before ++ e :: rest →
        (after before).known.toList <+: (after (before ++ [e])).known.toList := by
  have hl : ∀ e ∈ [Path.ofString "src/Page.elm", .ofString "src/./Main.elm"],
      entangledImports.disk.importLines? entangledImports.chunk e.normalize ≠ none := by
    have hscannable : ∀ e ∈ [Path.ofString "src/Page.elm", .ofString "src/./Main.elm"],
        (entangledImports.disk.importLines? entangledImports.chunk e.normalize).isSome = true := by
      decide +kernel
    exact fun e he => Option.isSome_iff_ne_none.mp (hscannable e he)
  have hroots : entangledImports.sourceRoots entangledImports.disk (.ofString "src/lib/..") =
      entangledImports.sourceRoots entangledImports.disk (Path.ofString "src/lib/..").normalize := rfl
  exact ⟨hl, hroots, union_of_walks entangledImports _ _ hl hroots⟩

/-- The manifest lies in a directory that the base directory is reached through, and the file beside it is in its
root only. -/
def strayManifest : Project :=
  let name (s : String) := Utf8.encode s.toList
  { disk := ((Disk.empty.makeFile [name "Main.elm", name "src"] (name "import Util\n")).makeFile
      [name "Util.elm", name "vendor", name "src"] (name "")).makeFile
      [name "elm.json", name "sub", name "src"] (name "\x7b\"source-directories\":[\"../vendor\"]\x7d") }

/-- A visit goes by the base directory as it is spelled, a walk by its normal spelling. -/
theorem known_ne_dependencies_strayManifest :
    let P := strayManifest
    let base := Path.ofString "src/sub/.."
    let file := Path.ofString "src/Main.elm"
    P.disk.importLines? P.chunk file.normalize ≠ none ∧
      (P.afterVisits [(base, file)] {}).known.toList = [.ofString "src/vendor/Util.elm"] ∧
      ∃ report, P.walk file (some base) = .ok report ∧ report.dependencies = [] := by
  refine ⟨?_, ?_, _, walk_of_baseOf rfl, ?_⟩
  · exact Option.isSome_iff_ne_none.mp (by decide +kernel)
  · exact Path.map_bytes_inj (by decide +kernel)
  · exact List.length_eq_zero_iff.mp (by decide +kernel)

end Project

end ElmImports
