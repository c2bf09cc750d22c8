import ElmImports.Disk.Change
import ElmImports.Proofs.Walk.Invariant
import ElmImports.Walk.Report

/-!
# A walk finds the transitive imports

Behind the dependencies it was given, a walk reports the targets of the imports of every file that it can
reach through sources it can read and was not told about. While it is on its way, each file that it has
entered has all its targets among the dependencies or the unreadable files; sources that wait in the list
of a file above are known and not visited yet, and none of them waits any more when the visit returns.
-/

namespace ElmImports.Project

/-! ## What can be reached -/

/-- An import line of `f` goes to `t`. -/
def Imports (P : Project) (base f t : Path) : Prop :=
  ∃ lines, P.disk.importLines? P.chunk f = some lines ∧
    ∃ line ∈ lines, ∃ m, ModuleName.ofImportLine? line = some m ∧ (P.target base m {}).1 = t

/-- The files that a walk from `entry` enters, apart from those that it was given. -/
inductive Reached (P : Project) (base entry : Path) (known visited : List Path) : Path → Prop
  | entry : P.disk.importLines? P.chunk entry ≠ none → Reached P base entry known visited entry
  | step {f t} : Reached P base entry known visited f → P.Imports base f t →
      P.layout.isSourceFile t = true → P.disk.importLines? P.chunk t ≠ none → t ∉ known → t ∉ visited →
      Reached P base entry known visited t

section
variable {P : Project} {base entry : Path} {known visited : List Path}

theorem rootsOf_of_roots_empty {r : Resolution} (h : r.roots = ∅) :
    r.rootsOf P base = P.sourceRoots P.disk base := by
  unfold Resolution.rootsOf Resolution.lookUp
  rw [h, Std.TreeMap.getElem?_emptyc]

theorem target_empty (m : ModuleName) :
    (P.target base m {}).1 = P.targetIn base (P.sourceRoots P.disk base) m := by
  obtain ⟨roots, asked, he, -⟩ := P.target_eq base m {}
  rw [he, rootsOf_of_roots_empty (by rfl)]

theorem imports_iff_mem_targetsIn {f t : Path} {lines : List Text}
    (hl : P.disk.importLines? P.chunk f = some lines) :
    P.Imports base f t ↔ t ∈ P.targetsIn base (P.sourceRoots P.disk base) lines := by
  constructor
  · rintro ⟨lines', hl', line, hline, m, hm, rfl⟩
    obtain rfl := Option.some.inj (hl.symm.trans hl')
    exact List.mem_filterMap.mpr ⟨line, hline, by rw [hm, target_empty]; rfl⟩
  · intro ht
    obtain ⟨line, hline, ht⟩ := List.mem_filterMap.mp ht
    obtain ⟨m, hm, rfl⟩ := Option.map_eq_some_iff.mp ht
    exact ⟨lines, hl, line, hline, m, hm, target_empty m⟩

theorem imports_iff_importsModule {f t : Path} : P.Imports base f t ↔
    ∃ m, P.ImportsModule f m ∧ t = P.targetIn base (P.sourceRoots P.disk base) m := by
  unfold Imports ImportsModule
  simp only [target_empty]
  constructor
  · rintro ⟨lines, hl, line, hline, m, hm, rfl⟩
    exact ⟨m, ⟨lines, hl, line, hline, hm⟩, rfl⟩
  · rintro ⟨m, ⟨lines, hl, line, hline, hm⟩, rfl⟩
    exact ⟨lines, hl, line, hline, m, hm, rfl⟩

theorem Reached.entry_scannable {f : Path} (h : P.Reached base entry known visited f) :
    P.disk.importLines? P.chunk entry ≠ none := by
  induction h with
  | entry he => exact he
  | step _ _ _ _ _ _ ih => exact ih

end

/-! ## What is kept on the way -/

/-- `r` is on the way of a walk that was told `known`, in the order of `given`, and `visited`. -/
structure OnTheWay (P : Project) (base entry : Path) (given known visited : List Path)
    (r : Resolution) : Prop where
  roots : r.rootsOf P base = P.sourceRoots P.disk base
  given : ∃ new, r.known.toList = given ++ new
  sound : ∀ t ∈ r.known.toList, t ∈ known ∨ ∃ f, P.Reached base entry known visited f ∧ P.Imports base f t
  closed : ∀ f ∈ r.visited.toList, f ∉ visited → ∀ t, P.Imports base f t →
    t ∈ r.known.toList ∨ t ∈ r.unreadable.toList
  seeds : visited ⊆ r.visited.toList
  tried : ∀ p ∈ r.visited.toList,
    p ∈ visited ∨ P.disk.importLines? P.chunk p ≠ none ∨ p ∈ r.unreadable.toList
  unknown : ∀ p ∈ r.unreadable.toList, p ∉ known
  unseeded : ∀ p ∈ r.unreadable.toList, p ∉ visited

structure Admitted (P : Project) (base entry : Path) (known visited : List Path) (p : Path) : Prop where
  unknown : P.disk.importLines? P.chunk p = none → p ∉ known
  reached : P.disk.importLines? P.chunk p ≠ none → p ∉ visited → P.Reached base entry known visited p

section
variable {P : Project} {base entry file : Path} {given known visited : List Path} {r r' : Resolution}

theorem OnTheWay.failed_visit (h : OnTheWay P base entry given known visited r) (hr : WellFormed P r)
    (hf : file.IsNormal) (hv : file ∉ r.visited.toList) (hl : P.disk.importLines? P.chunk file = none)
    (hk : file ∉ known) : OnTheWay P base entry given known visited ((r.mark file).setAside file) := by
  have hvisited {p : Path} := hr.mem_mark hf (p := p)
  have hunreadable {p : Path} := (hr.mark hf).mem_setAside hf (p := p)
  refine ⟨?_, h.given, h.sound, ?_, ?_, ?_, ?_, ?_⟩
  · exact ((grows_mark P base r file).trans (grows_setAside P base _ file)).roots.trans h.roots
  · intro f hfv hnot t ht
    rcases hvisited.mp hfv with rfl | hfv
    · obtain ⟨lines, hl', -⟩ := ht
      exact nomatch hl.symm.trans hl'
    · exact (h.closed f hfv hnot t ht).imp_right fun hu => hunreadable.mpr (.inr hu)
  · exact fun p hp => hvisited.mpr (.inr (h.seeds hp))
  · intro p hp
    rcases hvisited.mp hp with rfl | hp
    · exact .inr (.inr (hunreadable.mpr (.inl rfl)))
    · exact (h.tried p hp).imp_right (Or.imp_right fun hu => hunreadable.mpr (.inr hu))
  · intro p hp
    rcases hunreadable.mp hp with rfl | hp
    · exact hk
    · exact h.unknown p hp
  · intro p hp
    rcases hunreadable.mp hp with rfl | hp
    · exact fun hs => hv (h.seeds hs)
    · exact h.unseeded p hp

theorem OnTheWay.imports_iff {lines : List Text} (h : OnTheWay P base entry given known visited r)
    (hl : P.disk.importLines? P.chunk file = some lines) {t : Path} :
    P.Imports base file t ↔ t ∈ P.targetsIn base ((r.mark file).rootsOf P base) lines := by
  rw [(grows_mark P base r file).roots, h.roots]
  exact imports_iff_mem_targetsIn hl

theorem OnTheWay.enter {lines : List Text} {new : List Path}
    (h : OnTheWay P base entry given known visited r) (hr : WellFormed P r) (hf : file.IsNormal)
    (hv : file ∉ r.visited.toList) (hl : P.disk.importLines? P.chunk file = some lines)
    (he : Entered P base file (r.mark file) lines r' new)
    (hreached : P.Reached base entry known visited file) :
    OnTheWay P base entry given known visited r' := by
  have hmark := hr.mark hf
  have hknown {t : Path} : t ∈ r'.known.toList ↔ t ∈ r.known.toList ∨ t ∈ new := by
    rw [he.known, List.mem_append]
    rfl
  have hvisited {p : Path} : p ∈ r'.visited.toList ↔ p = file ∨ p ∈ r.visited.toList := by
    rw [he.visited]
    exact hr.mem_mark hf
  have hunreadable : r'.unreadable = r.unreadable := he.unreadable
  refine ⟨?_, ?_, ?_, ?_, ?_, ?_, ?_, ?_⟩
  · exact ((grows_mark P base r file).trans he.grows).roots.trans h.roots
  · obtain ⟨before, hb⟩ := h.given
    refine ⟨before ++ new, ?_⟩
    rw [he.known, ← List.append_assoc, ← hb]
    rfl
  · intro t ht
    rcases hknown.mp ht with ht | ht
    · exact h.sound t ht
    · exact .inr ⟨file, hreached, (h.imports_iff hl).mpr (hmark.mem_keptTargets.mp (he.new_kept t ht)).1⟩
  · intro f hfv hnot t ht
    rw [hunreadable]
    rcases hvisited.mp hfv with rfl | hfv
    -- a target that was not kept is unreadable already
    · by_cases hu : t ∈ r.unreadable.toList
      · exact .inr hu
      · exact .inl (he.covers hmark.known t (hmark.mem_keptTargets.mpr ⟨(h.imports_iff hl).mp ht, hu⟩))
    · exact (h.closed f hfv hnot t ht).imp_left fun hk => hknown.mpr (.inl hk)
  · exact fun p hp => hvisited.mpr (.inr (h.seeds hp))
  · intro p hp
    rw [hunreadable]
    rcases hvisited.mp hp with rfl | hp
    · exact .inr (.inl (by rw [hl]; exact nofun))
    · exact h.tried p hp
  · rw [hunreadable]; exact h.unknown
  · rw [hunreadable]; exact h.unseeded

section
variable (hgiven : ∀ p, p ∈ given ↔ p ∈ known)
include hgiven

theorem OnTheWay.dropUnreadable (h : OnTheWay P base entry given known visited r) (hr : WellFormed P r) :
    OnTheWay P base entry given known visited r.dropUnreadable := by
  refine { h with roots := ?_, given := ?_, sound := ?_, closed := ?_ }
  · exact (grows_dropUnreadable P base r).roots.trans h.roots
  · obtain ⟨new, hn⟩ := h.given
    refine ⟨new.filter (! r.unreadable.contains ·), ?_⟩
    show (r.known.exclude r.unreadable).toList = _
    rw [Dependencies.toList_exclude, hn, List.filter_append, List.filter_eq_self.mpr]
    intro p hp
    have hnormal := hr.known.normal p (hn ▸ List.mem_append_left _ hp)
    exact (hr.not_contains_unreadable hnormal).mpr fun hu => h.unknown p hu ((hgiven p).mp hp)
  · exact fun t ht => h.sound t (hr.mem_dropUnreadable.mp ht).1
  · intro f hfv hnot t ht
    by_cases hu : t ∈ r.unreadable.toList
    · exact .inr hu
    · exact .inl (hr.mem_dropUnreadable.mpr ⟨(h.closed f hfv hnot t ht).resolve_right hu, hu⟩)

theorem OnTheWay.not_mem_known {lines : List Text} {new : List Path}
    (h : OnTheWay P base entry given known visited r) (hr : WellFormed P r) (hf : file.IsNormal)
    (he : Entered P base file (r.mark file) lines r' new) {p : Path} (hp : p ∈ new) : p ∉ known := by
  intro hk
  have hnodup := ((hr.mark hf).enter he).known.nodup
  obtain ⟨before, hb⟩ := h.given
  have hin : p ∈ (r.mark file).known.toList := by
    show p ∈ r.known.toList
    rw [hb]
    exact List.mem_append_left _ ((hgiven p).mpr hk)
  rw [he.known] at hnodup
  exact (List.nodup_append.mp hnodup).2.2 p hin p hp rfl

theorem preserved_onTheWay : Preserved P base (fun _ => Admitted P base entry known visited)
    (OnTheWay P base entry given known visited) where
  may _ _ _ h := h
  failed hr hf hv hl hm h := h.failed_visit hr hf.normal hv hl (hm.unknown hl)
  entered {r file lines r' new} hr hf hv hl he hm h := by
    have hscannable : P.disk.importLines? P.chunk file ≠ none := by rw [hl]; exact nofun
    have hreached := hm.reached hscannable fun hs => hv (h.seeds hs)
    refine ⟨h.enter hr hf hv hl he hreached, fun p hp => ?_⟩
    obtain ⟨hnew, hs⟩ := List.mem_filter.mp hp
    have hunknown := h.not_mem_known hgiven hr hf he hnew
    have htarget := ((hr.mark hf).mem_keptTargets.mp (he.new_kept p hnew)).1
    have himports := (h.imports_iff hl).mpr htarget
    exact ⟨fun _ => hunknown, fun hp hnot => .step hreached himports hs hp hunknown hnot⟩
  dropped hr h := h.dropUnreadable hgiven hr

end

/-! ## What has been found in the end -/

structure Arrived (P : Project) (base entry : Path) (given known visited : List Path)
    (r : Resolution) : Prop where
  wellFormed : WellFormed P r
  onTheWay : OnTheWay P base entry given known visited r
  apart : Apart r
  entry_visited : entry ∈ r.visited.toList
  entry_scannable : P.disk.importLines? P.chunk entry ≠ none
  entry_unseeded : entry ∉ visited
  sources : ∀ p ∈ r.known.toList, P.layout.isSourceFile p = true → p ∈ known ∨ p ∈ r.visited.toList

theorem Arrived.reached_visited (h : Arrived P base entry given known visited r) {f : Path}
    (hf : P.Reached base entry known visited f) : f ∈ r.visited.toList ∧ f ∉ visited := by
  induction hf with
  | entry _ => exact ⟨h.entry_visited, h.entry_unseeded⟩
  | @step f t _ himports hs hscannable hunknown hunseeded ih =>
    refine ⟨?_, hunseeded⟩
    rcases h.onTheWay.closed f ih.1 ih.2 t himports with hk | hu
    · exact (h.sources t hk hs).resolve_left hunknown
    · exact absurd (h.wellFormed.failed t hu) hscannable

theorem Arrived.mem_known_iff (h : Arrived P base entry given known visited r) {t : Path} (ht : t ∉ known) :
    t ∈ r.known.toList ↔ (∃ f, P.Reached base entry known visited f ∧ P.Imports base f t) ∧
      ¬ (P.layout.isSourceFile t = true ∧ t ∉ visited ∧ t ≠ entry ∧
        P.disk.importLines? P.chunk t = none) := by
  constructor
  · intro hk
    refine ⟨(h.onTheWay.sound t hk).resolve_left ht, ?_⟩
    rintro ⟨hs, hunseeded, -, hl⟩
    rcases h.onTheWay.tried t ((h.sources t hk hs).resolve_left ht) with hv | hscannable | hu
    · exact hunseeded hv
    · exact hscannable hl
    · exact h.apart t hk hu
  · rintro ⟨⟨f, hf, himports⟩, hnot⟩
    obtain ⟨hv, hunseeded⟩ := h.reached_visited hf
    rcases h.onTheWay.closed f hv hunseeded t himports with hk | hu
    · exact hk
    · have hl := h.wellFormed.failed t hu
      have hne : t ≠ entry := fun he => h.entry_scannable (he ▸ hl)
      exact absurd ⟨h.wellFormed.source t hu, h.onTheWay.unseeded t hu, hne, hl⟩ hnot

end

/-! ## The report of a walk -/

section
variable {P : Project}

theorem normalSet_foldl_insert : ∀ (ps : List Path) {s : PathSet}, NormalSet s →
    NormalSet (ps.foldl (fun s p => s.insert p.normalize) s)
  | [], _, h => h
  | p :: ps, _, h => normalSet_foldl_insert ps (h.insert p.isNormal_normalize)

theorem mem_foldl_insert : ∀ (ps : List Path) {s : PathSet}, NormalSet s → ∀ {q : Path},
    q ∈ (ps.foldl (fun s p => s.insert p.normalize) s).toList ↔ q ∈ s.toList ∨ q ∈ ps.map Path.normalize
  | [], _, _, _ => by simp
  | p :: ps, s, h, q => by
    rw [List.foldl_cons, mem_foldl_insert ps (h.insert p.isNormal_normalize),
      mem_toList_insert h p.isNormal_normalize, List.map_cons, List.mem_cons, or_assoc, or_left_comm]

theorem wellFormed_seeded (P : Project) (known visited : List Path) :
    WellFormed P (.seeded known visited) :=
  { wellFormed_empty P with
    known := Dependencies.valid_ofList known
    visited := normalSet_foldl_insert visited normalSet_empty
    tried := List.nil_subset _ }

theorem mem_visited_seeded {known visited : List Path} {p : Path} :
    p ∈ (Resolution.seeded known visited).visited.toList ↔ p ∈ visited.map Path.normalize := by
  refine (mem_foldl_insert visited normalSet_empty).trans ⟨fun h => h.resolve_left ?_, .inr⟩
  exact fun h => nomatch h

theorem onTheWay_seeded (P : Project) (base entry : Path) (known visited : List Path) :
    OnTheWay P base entry (Dependencies.ofList known).toList (known.map Path.normalize)
      (visited.map Path.normalize) (.seeded known visited) where
  roots := rootsOf_of_roots_empty rfl
  given := ⟨[], (List.append_nil _).symm⟩
  sound _ ht := .inl (Dependencies.mem_ofList.mp ht)
  closed _ hf hnot := absurd (mem_visited_seeded.mp hf) hnot
  seeds _ hp := mem_visited_seeded.mpr hp
  tried _ hp := .inl (mem_visited_seeded.mp hp)
  unknown _ hp := nomatch hp
  unseeded _ hp := nomatch hp

variable {base entry : Path} {known visited : List Path} {v : Visit}

theorem apart_seeded (known visited : List Path) : Apart (.seeded known visited) :=
  fun _ _ hu => nomatch hu

theorem arrived_visit (he : entry.IsNormal) (hnot : entry ∉ visited.map Path.normalize)
    (hscannable : P.disk.importLines? P.chunk entry ≠ none)
    (hv : Visits P base entry (.seeded known visited) v) :
    Arrived P base entry (Dependencies.ofList known).toList (known.map Path.normalize)
      (visited.map Path.normalize) v.resolution where
  wellFormed := hv.wellFormed (wellFormed_seeded P known visited) he
  onTheWay := by
    have hgiven : ∀ p, p ∈ (Dependencies.ofList known).toList ↔ p ∈ known.map Path.normalize :=
      fun _ => Dependencies.mem_ofList
    have hadmitted : Admitted P base entry (known.map Path.normalize) (visited.map Path.normalize) entry :=
      ⟨fun hl => absurd hl hscannable, fun hs _ => .entry hs⟩
    exact (preserved_onTheWay hgiven).visits hv (wellFormed_seeded P known visited) he hadmitted
      (onTheWay_seeded P base entry known visited) fun _ hl => absurd hl hscannable
  apart := hv.apart (wellFormed_seeded P known visited) he (apart_seeded known visited)
  entry_visited := hv.mem_visited (wellFormed_seeded P known visited) he
  entry_scannable := hscannable
  entry_unseeded := hnot
  sources _ hp hs := by
    have hnew := hv.new_visited (wellFormed_seeded P known visited) he hp hs
    exact hnew.imp_left Dependencies.mem_ofList.mp

theorem known_of_unscannable (hnot : entry ∉ visited.map Path.normalize) (he : entry.IsNormal)
    (hl : P.disk.importLines? P.chunk entry = none) (hv : Visits P base entry (.seeded known visited) v) :
    v.resolution.known = .ofList known := by
  cases hv with
  | seen hc =>
    have hr := wellFormed_seeded P known visited
    exact absurd (mem_visited_seeded.mp ((hr.contains_visited he).mp hc)) hnot
  | failed _ _ => rfl
  | scanned _ hl' _ _ => exact nomatch hl.symm.trans hl'

theorem found_of_visits (he : entry.IsNormal) (hnot : entry ∉ visited.map Path.normalize)
    (hv : Visits P base entry (.seeded known visited) v) :
    (∃ new, v.resolution.known.toList = (Dependencies.ofList known).toList ++ new) ∧
      ∀ t, t ∉ known.map Path.normalize → (t ∈ v.resolution.known.toList ↔
        (∃ f, P.Reached base entry (known.map Path.normalize) (visited.map Path.normalize) f ∧
          P.Imports base f t) ∧
          ¬ (P.layout.isSourceFile t = true ∧ t ∉ visited.map Path.normalize ∧ t ≠ entry ∧
            P.disk.importLines? P.chunk t = none)) := by
  by_cases hl : P.disk.importLines? P.chunk entry = none
  -- such an entry is visited without being set aside: what is kept on the way fails for it
  · rw [known_of_unscannable hnot he hl hv]
    refine ⟨⟨[], (List.append_nil _).symm⟩, fun t ht => ?_⟩
    constructor
    · exact fun hk => absurd (Dependencies.mem_ofList.mp hk) ht
    · rintro ⟨⟨f, hf, -⟩, -⟩
      exact absurd hl hf.entry_scannable
  · have ha := arrived_visit he hnot hl hv
    exact ⟨ha.onTheWay.given, fun _ => ha.mem_known_iff⟩

theorem dependencies_report {r : Resolution} (hr : WellFormed P r) (ha : Apart r) :
    (r.report entry base).dependencies = r.known.toList := by
  show (r.known.exclude r.unreadable).toList = _
  rw [Dependencies.toList_exclude, List.filter_eq_self.mpr]
  exact fun p hp => (hr.not_contains_unreadable (hr.known.normal p hp)).mpr (ha p hp)

theorem walkFrom_seeded (h : entry.normalize ∉ visited.map Path.normalize) :
    P.walkFrom (.seeded known visited) entry (some base) =
      .ok ((P.visit base.normalize entry (.seeded known visited)).resolution.report
        entry.normalize base.normalize) := by
  have hunvisited : (Resolution.seeded known visited).visited.contains entry.normalize = false := by
    rw [Bool.eq_false_iff]
    have hr := wellFormed_seeded P known visited
    exact fun hc => h (mem_visited_seeded.mp ((hr.contains_visited entry.isNormal_normalize).mp hc))
  rw [P.walkFrom_eq hunvisited]
  rfl

/-- The dependencies of a walk are what it was told and then, without repetition, what it was not told of the
targets of all files that it reached, except the sources that it could not scan. -/
theorem dependencies_of_walkFrom_seeded (P : Project) (known visited : List Path) (entry base : Path)
    (h : entry.normalize ∉ visited.map Path.normalize) :
    ∃ report new, P.walkFrom (.seeded known visited) entry (some base) = .ok report ∧
      report.dependencies = (known.map Path.normalize).eraseDups ++ new ∧ new.Nodup ∧
      ∀ t, t ∈ new ↔
        (∃ f, P.Reached base.normalize entry.normalize (known.map Path.normalize)
            (visited.map Path.normalize) f ∧ P.Imports base.normalize f t) ∧
        t ∉ known.map Path.normalize ∧
        ¬ (P.layout.isSourceFile t = true ∧ t ∉ visited.map Path.normalize ∧ t ≠ entry.normalize ∧
          P.disk.importLines? P.chunk t = none) := by
  have hv := P.visits_visit base.normalize entry (.seeded known visited)
  have he := entry.isNormal_normalize
  have hr := hv.wellFormed (wellFormed_seeded P known visited) he
  have ha := hv.apart (wellFormed_seeded P known visited) he (apart_seeded known visited)
  obtain ⟨⟨new, hnew⟩, hfound⟩ := found_of_visits he h hv
  have hnodup := hr.known.nodup
  rw [hnew] at hnodup
  obtain ⟨-, hnodup, hapart⟩ := List.nodup_append.mp hnodup
  refine ⟨_, new, walkFrom_seeded h, ?_, hnodup, fun t => ?_⟩
  · rw [dependencies_report hr ha, hnew, Dependencies.toList_ofList]
  · have hmem : t ∈ new ↔ t ∉ known.map Path.normalize ∧
        t ∈ (P.visit base.normalize entry (.seeded known visited)).resolution.known.toList := by
      rw [hnew, List.mem_append, ← Dependencies.mem_ofList]
      constructor
      · exact fun ht => ⟨fun hk => hapart t hk t ht rfl, .inr ht⟩
      · exact fun ht => ht.2.resolve_left ht.1
    rw [hmem, and_left_comm]
    exact and_congr_right (hfound t)

def mutualImports : Disk :=
  let name (s : String) := Utf8.encode s.toList
  (Disk.empty.makeFile [name "Main.elm", name "src"] (name "import Main\nimport Page\n")).makeFile
    [name "Page.elm", name "src"] (name "import Main\nimport Seen\n")

theorem dependencies_of_mutualImports :
    (Path.ofString "src/./Main.elm").normalize ∉ [Path.ofString "src/Seen.elm"].map Path.normalize ∧
      ∃ report new, Project.walkFrom { disk := mutualImports }
          (.seeded [.ofString "src/Known.elm"] [.ofString "src/Seen.elm"])
          (.ofString "src/./Main.elm") (some (.ofString "src")) = .ok report ∧
        report.dependencies = ([Path.ofString "src/Known.elm"].map Path.normalize).eraseDups ++ new ∧
          new.Nodup := by
  have h : (Path.ofString "src/./Main.elm").normalize ∉
      [Path.ofString "src/Seen.elm"].map Path.normalize := by
    rw [List.map_singleton, List.mem_singleton]
    exact fun he => absurd (congrArg Path.bytes he) (by decide)
  obtain ⟨report, new, hwalk, hdependencies, hnodup, -⟩ :=
    dependencies_of_walkFrom_seeded { disk := mutualImports } [.ofString "src/Known.elm"]
      [.ofString "src/Seen.elm"] (.ofString "src/./Main.elm") (.ofString "src") h
  exact ⟨h, report, new, hwalk, hdependencies, hnodup⟩

end

end ElmImports.Project
