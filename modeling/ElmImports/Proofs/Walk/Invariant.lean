import ElmImports.Proofs.Walk.Depth

/-!
# Invariants of visits

What holds of a resolution at every point of a visit is preserved by setting a file aside, by entering its
imports and by dropping what is unreadable. Two facts hold only when a visit returns: no dependency is
unreadable, and every new source among the dependencies has been visited. In between, the children that
wait in the lists of the files above them break both.
-/

namespace ElmImports.Project

structure WellFormed (P : Project) (r : Resolution) : Prop where
  known : r.known.Valid
  visited : NormalSet r.visited
  unreadable : NormalSet r.unreadable
  tried : r.unreadable.toList ⊆ r.visited.toList
  source : ∀ p ∈ r.unreadable.toList, P.layout.isSourceFile p = true
  failed : ∀ p ∈ r.unreadable.toList, P.disk.importLines? P.chunk p = none

/-- What visits below the first are made of; the first may have any extension if it can be scanned. -/
structure Visitable (P : Project) (file : Path) : Prop where
  normal : file.IsNormal
  source : P.disk.importLines? P.chunk file = none → P.layout.isSourceFile file = true

section
variable {P : Project} {base file : Path} {r r' after : Resolution} {lines : List Text} {new : List Path}

theorem Entered.visitable (h : Entered P base file r lines r' new) :
    ∀ p ∈ P.sourcesIn new, Visitable P p := by
  intro p hp
  obtain ⟨hnew, hsource⟩ := List.mem_filter.mp hp
  exact ⟨h.normal p hnew, fun _ => hsource⟩

/-! ## Well-formed resolutions -/

theorem wellFormed_empty (P : Project) : WellFormed P {} :=
  ⟨Dependencies.valid_empty, normalSet_empty, normalSet_empty, List.nil_subset _, nofun, nofun⟩

theorem WellFormed.contains_visited (h : WellFormed P r) (hf : file.IsNormal) :
    r.visited.contains file = true ↔ file ∈ r.visited.toList :=
  contains_iff_mem_toList h.visited hf

theorem WellFormed.not_mem_visited (h : WellFormed P r) (hf : file.IsNormal)
    (hv : r.visited.contains file = false) :
    file ∉ r.visited.toList := by
  rw [← h.contains_visited hf, hv]
  exact Bool.false_ne_true

theorem WellFormed.contains_unreadable (h : WellFormed P r) (hf : file.IsNormal) :
    r.unreadable.contains file = true ↔ file ∈ r.unreadable.toList :=
  contains_iff_mem_toList h.unreadable hf

theorem WellFormed.not_contains_unreadable (h : WellFormed P r) (hf : file.IsNormal) :
    (! r.unreadable.contains file) = true ↔ file ∉ r.unreadable.toList := by
  rw [Bool.not_eq_true', ← h.contains_unreadable hf, Bool.eq_false_iff]

theorem WellFormed.mem_mark (h : WellFormed P r) (hf : file.IsNormal) {p : Path} :
    p ∈ (r.mark file).visited.toList ↔ p = file ∨ p ∈ r.visited.toList :=
  mem_toList_insert h.visited hf

theorem WellFormed.mem_setAside (h : WellFormed P r) (hf : file.IsNormal) {p : Path} :
    p ∈ (r.setAside file).unreadable.toList ↔ p = file ∨ p ∈ r.unreadable.toList :=
  mem_toList_insert h.unreadable hf

theorem WellFormed.mem_dropUnreadable (h : WellFormed P r) {p : Path} :
    p ∈ r.dropUnreadable.known.toList ↔ p ∈ r.known.toList ∧ p ∉ r.unreadable.toList := by
  show p ∈ (r.known.exclude r.unreadable).toList ↔ _
  rw [Dependencies.toList_exclude, List.mem_filter]
  exact and_congr_right fun hp => h.not_contains_unreadable (h.known.normal p hp)

theorem WellFormed.mem_keptTargets (h : WellFormed P r) {p : Path} :
    p ∈ P.keptTargets base r lines ↔ p ∈ P.targetsIn base (r.rootsOf P base) lines ∧
      p ∉ r.unreadable.toList := by
  unfold keptTargets
  rw [List.mem_filter]
  exact and_congr_right fun hp => h.not_contains_unreadable (isNormal_of_mem_targetsIn hp)

theorem Entered.mem_visited (he : Entered P base file (r.mark file) lines r' new) (hr : WellFormed P r)
    (hf : file.IsNormal) {p : Path} : p ∈ r'.visited.toList ↔ p = file ∨ p ∈ r.visited.toList := by
  rw [he.visited]
  exact hr.mem_mark hf

theorem Entered.mem_known (he : Entered P base file (r.mark file) lines r' new) {t : Path} :
    t ∈ r'.known.toList ↔ t ∈ r.known.toList ∨ t ∈ new := by
  rw [he.known, List.mem_append]
  rfl

theorem WellFormed.mem_of_mem_leave (h : WellFormed P after) {p : Path}
    (hp : p ∈ (r.leave after).known.toList) :
    p ∈ after.known.toList := by
  unfold Resolution.leave at hp
  split at hp
  · exact (h.mem_dropUnreadable.mp hp).1
  · exact hp

theorem WellFormed.mark (h : WellFormed P r) (hf : file.IsNormal) : WellFormed P (r.mark file) :=
  { h with
    visited := h.visited.insert hf
    tried := List.Subset.trans h.tried (toList_subset_insert _ _) }

theorem WellFormed.setAside (h : WellFormed P r) (hf : Visitable P file) (hv : file ∈ r.visited.toList)
    (hl : P.disk.importLines? P.chunk file = none) : WellFormed P (r.setAside file) := by
  refine ⟨h.known, h.visited, h.unreadable.insert hf.normal, ?_, ?_, ?_⟩
  · intro p hp
    rcases (h.mem_setAside hf.normal).mp hp with rfl | hp
    · exact hv
    · exact h.tried hp
  · intro p hp
    rcases (h.mem_setAside hf.normal).mp hp with rfl | hp
    · exact hf.source hl
    · exact h.source p hp
  · intro p hp
    rcases (h.mem_setAside hf.normal).mp hp with rfl | hp
    · exact hl
    · exact h.failed p hp

theorem WellFormed.failed_visit (h : WellFormed P r) (hf : Visitable P file)
    (hl : P.disk.importLines? P.chunk file = none) : WellFormed P ((r.mark file).setAside file) :=
  (h.mark hf.normal).setAside hf ((h.mem_mark hf.normal).mpr (.inl rfl)) hl

theorem WellFormed.enter (h : WellFormed P r) (he : Entered P base file r lines r' new) :
    WellFormed P r' where
  known := he.valid h.known
  visited := he.visited ▸ h.visited
  unreadable := he.unreadable ▸ h.unreadable
  tried := by rw [he.unreadable, he.visited]; exact h.tried
  source := by rw [he.unreadable]; exact h.source
  failed := by rw [he.unreadable]; exact h.failed

theorem WellFormed.dropUnreadable (h : WellFormed P r) : WellFormed P r.dropUnreadable :=
  { h with known := h.known.exclude r.unreadable }

theorem WellFormed.leave (h : WellFormed P after) (r : Resolution) : WellFormed P (r.leave after) := by
  unfold Resolution.leave
  split
  · exact h.dropUnreadable
  · exact h

mutual

theorem Visits.wellFormed_settle {P : Project} {base file : Path} {r : Resolution} {v : Visit}
    (h : Visits P base file r v) (hr : WellFormed P r) (hf : Visitable P file) :
    WellFormed P v.settle := by
  match h with
  | .seen _ => exact hr
  | .failed _ hl => exact hr.failed_visit hf hl
  | .scanned _ _ hentered hall =>
    exact (hall.wellFormed ((hr.mark hf.normal).enter hentered) hentered.visitable).leave r

theorem VisitsAll.wellFormed {P : Project} {base : Path} {files : List Path} {r after : Resolution}
    (h : VisitsAll P base files r after) (hr : WellFormed P r) (hfiles : ∀ p ∈ files, Visitable P p) :
    WellFormed P after := by
  match h with
  | .nil => exact hr
  | .cons hfirst hrest =>
    obtain ⟨hp, hps⟩ := List.forall_mem_cons.mp hfiles
    exact hrest.wellFormed (hfirst.wellFormed_settle hr hp) hps

end

theorem Visits.wellFormed {v : Visit} (h : Visits P base file r v) (hr : WellFormed P r)
    (hf : file.IsNormal) : WellFormed P v.resolution := by
  match h with
  | .seen _ => exact hr
  | .failed _ _ => exact hr.mark hf
  | .scanned _ _ hentered hall =>
    exact (hall.wellFormed ((hr.mark hf).enter hentered) hentered.visitable).leave r

end

/-! ## The rule of preservation -/

/-- `Inv` is kept by all that happens in a visit of a file that it may visit. -/
structure Preserved (P : Project) (base : Path) (May : Resolution → Path → Prop)
    (Inv : Resolution → Prop) : Prop where
  may : ∀ {r r' p}, Grows P base r r' → WellFormed P r' → p.IsNormal → May r p → May r' p
  failed : ∀ {r file}, WellFormed P r → Visitable P file → file ∉ r.visited.toList →
    P.disk.importLines? P.chunk file = none → May r file → Inv r → Inv ((r.mark file).setAside file)
  entered : ∀ {r file lines r' new}, WellFormed P r → file.IsNormal → file ∉ r.visited.toList →
    P.disk.importLines? P.chunk file = some lines → Entered P base file (r.mark file) lines r' new →
    May r file → Inv r → Inv r' ∧ ∀ p ∈ P.sourcesIn new, May r' p
  dropped : ∀ {r}, WellFormed P r → Inv r → Inv r.dropUnreadable

section
variable {P : Project} {base : Path} {May : Resolution → Path → Prop} {Inv : Resolution → Prop}
  (hI : Preserved P base May Inv)
include hI

theorem Preserved.leave {after : Resolution} (h : WellFormed P after) (hi : Inv after) (r : Resolution) :
    Inv (r.leave after) := by
  unfold Resolution.leave
  split
  · exact hI.dropped h hi
  · exact hi

mutual

theorem Preserved.visits_settle {file : Path} {r : Resolution} {v : Visit} (h : Visits P base file r v)
    (hr : WellFormed P r) (hf : Visitable P file) (hm : May r file) (hi : Inv r) : Inv v.settle := by
  match h with
  | .seen _ => exact hi
  | .failed hv hl => exact hI.failed hr hf (hr.not_mem_visited hf.normal hv) hl hm hi
  | .scanned hv hl he hall =>
    obtain ⟨hi', hm'⟩ := hI.entered hr hf.normal (hr.not_mem_visited hf.normal hv) hl he hm hi
    have hwf := (hr.mark hf.normal).enter he
    exact hI.leave (hall.wellFormed hwf he.visitable)
      (Preserved.visitsAll hall hwf he.visitable hm' hi') r

theorem Preserved.visitsAll {files : List Path} {r after : Resolution}
    (h : VisitsAll P base files r after) (hr : WellFormed P r) (hfiles : ∀ p ∈ files, Visitable P p)
    (hm : ∀ p ∈ files, May r p) (hi : Inv r) : Inv after := by
  match h with
  | .nil => exact hi
  | .cons hfirst hrest =>
    obtain ⟨hp, hps⟩ := List.forall_mem_cons.mp hfiles
    obtain ⟨hmp, hmps⟩ := List.forall_mem_cons.mp hm
    have hwf := hfirst.wellFormed_settle hr hp
    have hmps' := fun q hq => hI.may hfirst.settle_grows hwf (hps q hq).normal (hmps q hq)
    exact Preserved.visitsAll hrest hwf hps hmps' (Preserved.visits_settle hfirst hr hp hmp hi)

end

/-- The first file of a walk is not set aside when it cannot be scanned. -/
theorem Preserved.visits {file : Path} {r : Resolution} {v : Visit} (h : Visits P base file r v)
    (hr : WellFormed P r) (hf : file.IsNormal) (hm : May r file) (hi : Inv r)
    (hmark : file ∉ r.visited.toList → P.disk.importLines? P.chunk file = none → Inv (r.mark file)) :
    Inv v.resolution := by
  cases h with
  | seen _ => exact hi
  | failed hv hl => exact hmark (hr.not_mem_visited hf hv) hl
  | scanned hv hl he hall =>
    have hfile : Visitable P file := ⟨hf, fun hn => nomatch hl.symm.trans hn⟩
    exact hI.visits_settle (.scanned hv hl he hall) hr hfile hm hi

end

/-! ## What holds when a visit returns -/

def Apart (r : Resolution) : Prop :=
  ∀ p ∈ r.known.toList, p ∉ r.unreadable.toList

section
variable {P : Project} {base file : Path} {r r' after : Resolution} {v : Visit} {lines : List Text}
    {new : List Path}

theorem WellFormed.apart_leave (h : WellFormed P after)
    (ha : Apart after ∨ r.unreadable.size < after.unreadable.size) : Apart (r.leave after) := by
  unfold Resolution.leave
  split
  · exact fun p hp => (h.mem_dropUnreadable.mp hp).2
  · rename_i hs
    exact ha.resolve_right hs

theorem Entered.apart (h : Entered P base file r lines r' new) (hr : WellFormed P r) (ha : Apart r) :
    Apart r' := by
  intro p hp
  rw [h.known] at hp
  rw [h.unreadable]
  rcases List.mem_append.mp hp with hp | hp
  · exact ha p hp
  · exact (hr.mem_keptTargets.mp (h.new_kept p hp)).2

theorem Visits.settle_eq_or_grown (h : Visits P base file r v) (hr : WellFormed P r) (hf : file.IsNormal) :
    v.settle = v.resolution ∨ r.unreadable.size < v.settle.unreadable.size := by
  cases h with
  | seen _ => exact .inl rfl
  | failed hv _ =>
    refine .inr ?_
    show _ < (r.unreadable.insert file).size
    rw [size_insert_of_not_mem hr.unreadable hf fun hu => hr.not_mem_visited hf hv (hr.tried hu)]
    exact Nat.lt_succ_self _
  | scanned _ _ _ _ => exact .inl rfl

mutual

theorem Visits.apart {P : Project} {base file : Path} {r : Resolution} {v : Visit}
    (h : Visits P base file r v) (hr : WellFormed P r) (hf : file.IsNormal) (ha : Apart r) :
    Apart v.resolution := by
  match h with
  | .seen _ => exact ha
  | .failed _ _ => exact ha
  | .scanned _ _ he hall =>
    have hwf := (hr.mark hf).enter he
    have hafter := hall.apart_or_grown hwf he.visitable (he.apart (hr.mark hf) ha)
    rw [he.unreadable] at hafter
    exact (hall.wellFormed hwf he.visitable).apart_leave hafter

/-- A file that is set aside may stay among the dependencies until the file above is left. -/
theorem VisitsAll.apart_or_grown {P : Project} {base : Path} {files : List Path} {r after : Resolution}
    (h : VisitsAll P base files r after) (hr : WellFormed P r) (hfiles : ∀ p ∈ files, Visitable P p)
    (ha : Apart r) : Apart after ∨ r.unreadable.size < after.unreadable.size := by
  match h with
  | .nil => exact .inl ha
  | .cons hfirst hrest =>
    obtain ⟨hp, hps⟩ := List.forall_mem_cons.mp hfiles
    -- once a file is set aside the unreadable ones have grown for good; until then nothing breaks apart
    rcases hfirst.settle_eq_or_grown hr hp.normal with he | hs
    · have ha' := hfirst.apart hr hp.normal ha
      rw [← he] at ha'
      rcases hrest.apart_or_grown (hfirst.wellFormed_settle hr hp) hps ha' with ha' | hs
      · exact .inl ha'
      · exact .inr (Nat.lt_of_le_of_lt hfirst.settle_grows.size hs)
    · exact .inr (Nat.lt_of_lt_of_le hs hrest.grows.size)

end

/-! ## New sources are visited -/

theorem Visits.mem_visited (h : Visits P base file r v) (hr : WellFormed P r) (hf : file.IsNormal) :
    file ∈ v.resolution.visited.toList := by
  cases h with
  | seen hv => exact (hr.contains_visited hf).mp hv
  | failed _ _ => exact (hr.mem_mark hf).mpr (.inl rfl)
  | scanned _ _ he hall =>
    have hmark : file ∈ (r.mark file).visited.toList := (hr.mem_mark hf).mpr (.inl rfl)
    rw [r.visited_leave]
    exact hall.grows.visited (he.grows.visited hmark)

theorem VisitsAll.mem_visited {P : Project} {base : Path} {files : List Path} {r after : Resolution}
    (h : VisitsAll P base files r after) (hr : WellFormed P r) (hfiles : ∀ p ∈ files, Visitable P p) :
    files ⊆ after.visited.toList := by
  match h with
  | .nil => exact List.nil_subset _
  | .cons (v := v) hfirst hrest =>
    obtain ⟨hp, hps⟩ := List.forall_mem_cons.mp hfiles
    refine List.cons_subset.mpr ⟨?_, hrest.mem_visited (hfirst.wellFormed_settle hr hp) hps⟩
    exact hrest.grows.visited (v.visited_settle ▸ hfirst.mem_visited hr hp.normal)

mutual

theorem Visits.new_visited {P : Project} {base file : Path} {r : Resolution} {v : Visit}
    (h : Visits P base file r v) (hr : WellFormed P r) (hf : file.IsNormal) {p : Path}
    (hp : p ∈ v.resolution.known.toList) (hs : P.layout.isSourceFile p = true) :
    p ∈ r.known.toList ∨ p ∈ v.resolution.visited.toList := by
  match h with
  | .seen _ => exact .inl hp
  | .failed _ _ => exact .inl hp
  | .scanned _ _ he hall =>
    have hwf := (hr.mark hf).enter he
    rw [r.visited_leave]
    have hp' := (hall.wellFormed hwf he.visitable).mem_of_mem_leave hp
    rcases hall.new_visited hwf he.visitable hp' hs with hp | hp
    · rw [he.known] at hp
      rcases List.mem_append.mp hp with hp | hp
      · exact .inl hp
      · exact .inr (hall.mem_visited hwf he.visitable (List.mem_filter.mpr ⟨hp, hs⟩))
    · exact .inr hp

theorem VisitsAll.new_visited {P : Project} {base : Path} {files : List Path} {r after : Resolution}
    (h : VisitsAll P base files r after) (hr : WellFormed P r) (hfiles : ∀ p ∈ files, Visitable P p)
    {p : Path} (hp : p ∈ after.known.toList) (hs : P.layout.isSourceFile p = true) :
    p ∈ r.known.toList ∨ p ∈ after.visited.toList := by
  match h with
  | .nil => exact .inl hp
  | .cons (v := v) hfirst hrest =>
    obtain ⟨hfile, hfiles⟩ := List.forall_mem_cons.mp hfiles
    rcases hrest.new_visited (hfirst.wellFormed_settle hr hfile) hfiles hp hs with hp | hp
    · rw [v.known_settle] at hp
      rcases hfirst.new_visited hr hfile.normal hp hs with hp | hp
      · exact .inl hp
      · exact .inr (hrest.grows.visited (v.visited_settle ▸ hp))
    · exact .inr hp

end

end

end ElmImports.Project
