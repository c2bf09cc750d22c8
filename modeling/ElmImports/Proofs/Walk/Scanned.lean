import ElmImports.Proofs.Walk.Sequence

/-!
# Which files a visit scans

A visit that starts from nothing ends, and scans no file twice: a file is marked as visited when it is
scanned and is not scanned once it is marked. Those visited are the first file, the files that could not
be read, and the sources among the dependencies.
-/

namespace ElmImports.Project

/-! ## Each file once -/

structure ScannedOnce (r : Resolution) : Prop where
  nodup : r.scanned.toList.Nodup
  visited : ∀ p, p ∈ r.scanned.toList ↔ p ∈ r.visited.toList

section
variable {P : Project} {base file : Path} {r r' : Resolution} {lines : List Text} {new : List Path}

theorem ScannedOnce.mark (h : ScannedOnce r) (hr : WellFormed P r) (hf : file.IsNormal)
    (hv : file ∉ r.visited.toList) :
    ScannedOnce (r.mark file) := by
  have hscanned : (r.mark file).scanned.toList = r.scanned.toList ++ [file] := Array.toList_push
  refine ⟨?_, ?_⟩
  · rw [hscanned]
    refine List.nodup_append.mpr ⟨h.nodup, by simp, ?_⟩
    rintro p hp q hq rfl
    rw [List.mem_singleton.mp hq] at hp
    exact hv ((h.visited file).mp hp)
  · intro p
    rw [hscanned, List.mem_append, List.mem_singleton, h.visited, hr.mem_mark hf, or_comm]

theorem ScannedOnce.enter (h : ScannedOnce r) (he : Entered P base file r lines r' new) :
    ScannedOnce r' := by
  refine ⟨?_, ?_⟩
  · rw [he.scanned]; exact h.nodup
  · rw [he.scanned, he.visited]; exact h.visited

theorem preserved_scannedOnce (P : Project) (base : Path) :
    Preserved P base (fun _ _ => True) ScannedOnce where
  may _ _ _ _ := trivial
  failed hr hf hv _ _ h := ⟨(h.mark hr hf.normal hv).nodup, (h.mark hr hf.normal hv).visited⟩
  entered hr hf hv _ he _ h := ⟨(h.mark hr hf hv).enter he, fun _ _ => trivial⟩
  dropped _ h := ⟨h.nodup, h.visited⟩

/-! ## No file without a reason -/

/-- `p` is the first file, or a source that some import named. -/
def Accounted (P : Project) (first : Path) (r : Resolution) (p : Path) : Prop :=
  p = first ∨ P.layout.isSourceFile p = true ∧ (p ∈ r.known.toList ∨ p ∈ r.unreadable.toList)

variable {first p : Path}

theorem Accounted.grow (h : Accounted P first r p) (hg : Grows P base r r') (hr : WellFormed P r')
    (hp : p.IsNormal) :
    Accounted P first r' p := by
  rcases h with h | ⟨hs, hk | hu⟩
  · exact .inl h
  · exact .inr ⟨hs, (hg.known p hk).imp_right (hr.contains_unreadable hp).mp⟩
  · exact .inr ⟨hs, .inr (hg.unreadable hu)⟩

theorem accounted_marked (h : ∀ p ∈ r.visited.toList, Accounted P first r p) (hr : WellFormed P r)
    (hf : file.IsNormal) (hg : Grows P base r r') (hr' : WellFormed P r') (hv : r'.visited = (r.mark file).visited)
    (hfile : Accounted P first r' file) : ∀ p ∈ r'.visited.toList, Accounted P first r' p := by
  intro p hp
  rw [hv] at hp
  rcases (hr.mem_mark hf).mp hp with rfl | hp
  · exact hfile
  · exact (h p hp).grow hg hr' (hr.visited p hp)

theorem preserved_accounted (P : Project) (base first : Path) :
    Preserved P base (Accounted P first) fun r => ∀ p ∈ r.visited.toList, Accounted P first r p where
  may hg hr hp h := h.grow hg hr hp
  failed {r file} hr hf hv hl hm h := by
    have hg := (grows_mark P base r file).trans (grows_setAside P base _ file)
    refine accounted_marked h hr hf.normal hg (hr.failed_visit hf hl) rfl (.inr ⟨hf.source hl, .inr ?_⟩)
    exact ((hr.mark hf.normal).mem_setAside hf.normal).mpr (.inl rfl)
  entered {r file lines r' new} hr hf hv hl he hm h := by
    have hg := (grows_mark P base r file).trans he.grows
    have hr' := (hr.mark hf).enter he
    refine ⟨accounted_marked h hr hf hg hr' he.visited (hm.grow hg hr' hf), fun p hp => ?_⟩
    obtain ⟨hnew, hs⟩ := List.mem_filter.mp hp
    refine .inr ⟨hs, .inl ?_⟩
    rw [he.known]
    exact List.mem_append_right _ hnew
  dropped hr h p hp := (h p hp).grow (grows_dropUnreadable P base _) hr.dropUnreadable (hr.visited p hp)

/-! ## A visit from nothing -/

theorem scannedOnce_visit (P : Project) (base entry : Path) : ScannedOnce (P.visit base entry {}).resolution := by
  have hempty := wellFormed_empty P
  have he := entry.isNormal_normalize
  have hnone : ScannedOnce {} := ⟨List.nodup_nil, fun _ => Iff.rfl⟩
  refine (preserved_scannedOnce P base).visits (P.visits_visit base entry {}) hempty he trivial hnone fun hn _ => ?_
  exact hnone.mark hempty he hn

theorem accounted_visit (P : Project) (base entry : Path) :
    ∀ p ∈ (P.visit base entry {}).resolution.visited.toList,
      Accounted P entry.normalize (P.visit base entry {}).resolution p := by
  have hempty := wellFormed_empty P
  have he := entry.isNormal_normalize
  have hnone : ∀ p ∈ ({} : Resolution).visited.toList, Accounted P entry.normalize {} p := nofun
  refine (preserved_accounted P base entry.normalize).visits (P.visits_visit base entry {}) hempty he (.inl rfl) hnone
    fun _ _ => ?_
  exact accounted_marked hnone hempty he (grows_mark P base _ _) (hempty.mark he) rfl (.inl rfl)

theorem accounted_of_scanned {entry : Path} (h : p ∈ (P.visit base entry {}).resolution.scanned.toList) :
    Accounted P entry.normalize (P.visit base entry {}).resolution p :=
  accounted_visit P base entry p (((scannedOnce_visit P base entry).visited p).mp h)

end

theorem scans_of_visit (P : Project) (base entry : Path) :
    ∃ v, P.visit base entry {} = v ∧
      (∀ depth, P.depthBound base {} ≤ depth → P.visitWithin base depth entry {} = some v) ∧
      v.resolution.scanned.toList.Nodup ∧
      (∀ p ∈ v.resolution.scanned.toList, p.normalize = p) ∧
      (∀ p, p ∈ v.resolution.scanned.toList ↔ p ∈ v.resolution.visited.toList) ∧
      (∀ p, p ∈ v.resolution.visited.toList ↔ p = entry.normalize ∨ p ∈ v.resolution.unreadable.toList ∨
        p ∈ v.resolution.known.toList ∧ P.layout.isSourceFile p = true) ∧
      (∀ p ∈ v.resolution.scanned.toList, p = entry.normalize ∨ P.layout.isSourceFile p = true) := by
  refine ⟨_, rfl, fun depth hd => P.visitWithin_of_le base hd entry, ?_⟩
  have hsettled := (settled_empty P).visit base entry
  have honce := scannedOnce_visit P base entry
  refine ⟨honce.nodup, ?_, honce.visited, ?_, ?_⟩
  · exact fun p hp => hsettled.wellFormed.visited p ((honce.visited p).mp hp)
  · intro p
    constructor
    · intro hp
      rcases accounted_visit P base entry p hp with rfl | ⟨hs, hk | hu⟩
      · exact .inl rfl
      · exact .inr (.inr ⟨hk, hs⟩)
      · exact .inr (.inl hu)
    · rintro (rfl | hu | ⟨hk, hs⟩)
      · exact (P.visits_visit base entry {}).mem_visited (wellFormed_empty P) entry.isNormal_normalize
      · exact hsettled.wellFormed.tried hu
      · exact hsettled.sources p hk hs
  · exact fun p hp => (accounted_of_scanned hp).imp_right And.left

end ElmImports.Project
