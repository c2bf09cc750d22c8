import ElmImports.Proofs.ImportBlock.Scan
import ElmImports.Proofs.Walk.Recursion
import ElmImports.Walk.Report

/-!
# Visits come to an end

Every file below the first is named by an import line of a file on the disk and lies below the base
directory or one of its roots, so that there are finitely many of them. A visit that scans a file leaves
one fewer that is not visited, and visited files are not entered again: the depth that a visit is given
suffices, more depth changes nothing, and a visit obeys its recursion with no depth in sight.
-/

namespace ElmImports

namespace Project

section
variable {P : Project} {base : Path}

/-! ## More depth changes nothing -/

theorem visitAllWithin_mono {depth depth' : Nat}
    (ih : ∀ file r v, P.visitWithin base depth file r = some v →
      P.visitWithin base depth' file r = some v) :
    ∀ files r after, P.visitAllWithin base depth files r = some after →
      P.visitAllWithin base depth' files r = some after
  | [], r, after, h => h
  | p :: files, r, after, h => by
    rw [visitAllWithin_cons] at h ⊢
    obtain ⟨v, hv, h⟩ := Option.bind_eq_some_iff.mp h
    rw [ih p r v hv, Option.bind_some]
    exact visitAllWithin_mono ih files _ after h

theorem visitWithin_mono (depth : Nat) : ∀ depth', depth ≤ depth' →
    ∀ file r v, P.visitWithin base depth file r = some v → P.visitWithin base depth' file r = some v := by
  induction depth with
  | zero => intro depth' _ file r v h; cases h
  | succ depth ih =>
    intro depth' hle file r v h
    obtain ⟨depth', rfl⟩ := Nat.exists_eq_add_of_le' hle
    rw [← Nat.add_assoc, visitWithin_succ]
    rw [visitWithin_succ] at h
    by_cases hv : r.visited.contains file.normalize = true
    · rw [if_pos hv] at h ⊢
      exact h
    · rw [if_neg hv] at h ⊢
      cases hl : P.disk.importLines? P.chunk file.normalize with
      | none => rw [hl] at h; exact h
      | some lines =>
        rw [hl] at h
        obtain ⟨after, hafter, hv⟩ := Option.map_eq_some_iff.mp h
        exact Option.map_eq_some_iff.mpr
          ⟨after, visitAllWithin_mono (ih (depth' + depth) (Nat.le_add_left _ _)) _ _ after hafter, hv⟩

/-! ## Enough depth -/

def unvisited (files : List Path) (r : Resolution) : List Path :=
  files.filter (! r.visited.contains ·)

theorem unvisited_of_grows {r r' : Resolution} (h : Grows P base r r') (files : List Path) :
    unvisited files r' = (unvisited files r).filter (! r'.visited.contains ·) := by
  unfold unvisited
  rw [List.filter_filter]
  refine List.filter_congr fun p _ => ?_
  cases hr : r.visited.contains p with
  | true => rw [contains_of_subset h.visited hr]; rfl
  | false => rw [Bool.not_false, Bool.and_true]

theorem length_unvisited_le {r r' : Resolution} (h : Grows P base r r') (files : List Path) :
    (unvisited files r').length ≤ (unvisited files r).length := by
  rw [unvisited_of_grows h]
  exact List.length_filter_le _ _

theorem length_unvisited_lt {r r' : Resolution} (h : Grows P base r r') {files : List Path} {p : Path}
    (hp : p ∈ files) (hr : r.visited.contains p = false) (hr' : r'.visited.contains p = true) :
    (unvisited files r').length < (unvisited files r).length := by
  rw [unvisited_of_grows h, List.length_filter_lt_length_iff_exists]
  exact ⟨p, List.mem_filter.mpr ⟨hp, by rw [hr]; rfl⟩, by rw [hr']; exact Bool.false_ne_true⟩

section
variable {files roots : List Path}
  (hfiles : ∀ file lines, P.disk.importLines? P.chunk file = some lines →
    ∀ t ∈ P.targetsIn base roots lines, t ∈ files)

theorem visitAllWithin_total {depth : Nat}
    (ih : ∀ file r, r.rootsOf P base = roots → file.normalize ∈ files →
      (unvisited files r).length < depth → ∃ v, P.visitWithin base depth file r = some v) :
    ∀ ps r, (∀ p ∈ ps, p.normalize ∈ files) → r.rootsOf P base = roots →
      (unvisited files r).length < depth → ∃ after, P.visitAllWithin base depth ps r = some after
  | [], r, _, _, _ => ⟨r, rfl⟩
  | p :: ps, r, hps, hr, hd => by
    obtain ⟨v, hv⟩ := ih p r hr (hps p (by simp)) hd
    have hgrows := (visits_of_visitWithin depth p r v hv).settle_grows
    rw [visitAllWithin_cons, hv, Option.bind_some]
    exact visitAllWithin_total ih ps v.settle (fun q hq => hps q (by simp [hq])) (hgrows.roots.trans hr)
      (Nat.lt_of_le_of_lt (length_unvisited_le hgrows files) hd)

include hfiles in
theorem visitWithin_total (depth : Nat) : ∀ file r, r.rootsOf P base = roots → file.normalize ∈ files →
    (unvisited files r).length < depth → ∃ v, P.visitWithin base depth file r = some v := by
  induction depth with
  | zero => intro file r _ _ hd; exact absurd hd (Nat.not_lt_zero _)
  | succ depth ih =>
    intro file r hr hf hd
    rw [visitWithin_succ]
    by_cases hv : r.visited.contains file.normalize = true
    · rw [if_pos hv]; exact ⟨_, rfl⟩
    · rw [if_neg hv]
      cases hl : P.disk.importLines? P.chunk file.normalize with
      | none => exact ⟨_, rfl⟩
      | some lines =>
        have hmark : (r.mark file.normalize).visited.contains file.normalize = true :=
          Std.TreeSet.contains_insert_self
        have hentered := entered_enterImports P base file.normalize (r.mark file.normalize) lines
        -- marking takes the file from the unvisited ones, and entering its imports gives none back
        have hlt := length_unvisited_lt (grows_mark P base r file.normalize) hf
          (Bool.eq_false_iff.mpr hv) hmark
        have hle := length_unvisited_le hentered.grows files
        have hroots := (grows_mark P base r file.normalize).roots.trans hr
        have hbelow : ∀ p ∈ P.sourcesIn
            (P.enterImports base file.normalize (r.mark file.normalize) lines).2.toList, p.normalize ∈ files := by
          intro p hp
          have hnew := (List.mem_filter.mp hp).1
          have hmem := (List.mem_filter.mp (hentered.new_kept p hnew)).1
          rw [show p.normalize = p from hentered.normal p hnew]
          exact hfiles _ lines hl p (hroots ▸ hmem)
        obtain ⟨after, ha⟩ := visitAllWithin_total ih _ _ hbelow (hentered.roots.trans hroots) (by omega)
        exact ⟨_, Option.map_eq_some_iff.mpr ⟨after, ha, rfl⟩⟩

end

end

end Project

/-! ## The files that imports can name -/

namespace Disk

theorem importLines?_eq_some {disk : Disk} {chunk : Nat} {file : Path} {lines : List Text}
    (h : disk.importLines? chunk file = some lines) :
    ∃ content ∈ disk.contents, ∃ scan, Scan.ofSource [.data content] chunk = .ok scan ∧
      scan.scanner.imports = lines := by
  cases hread : disk.read file with
  | error cause =>
    rw [importLines?_of_read_error hread] at h
    cases h
  | ok content =>
    obtain ⟨_, -, hnode⟩ := read_eq_ok_iff.mp hread
    obtain ⟨scan, hscan, himports⟩ := Scan.ofSource_data content chunk
    rw [importLines?_of_read hread, ← himports] at h
    exact ⟨content, mem_contents hnode, scan, hscan, Option.some.inj h⟩

end Disk

namespace Project

section
variable (P : Project) (base : Path)

theorem mem_allImportLines {file : Path} {lines : List Text} {line : Text}
    (h : P.disk.importLines? P.chunk file = some lines) (hline : line ∈ lines) :
    line ∈ P.allImportLines := by
  obtain ⟨content, hc, scan, hs, rfl⟩ := Disk.importLines?_eq_some h
  refine List.mem_flatMap.mpr ⟨content, hc, ?_⟩
  rw [hs]
  exact hline

def placesOf (roots : List Path) (line : Text) : List Path :=
  match ModuleName.ofImportLine? line with
  | some m => m.pathUnder base P.layout :: roots.map (m.pathUnder · P.layout)
  | none => []

theorem length_placesOf_le (roots : List Path) (line : Text) :
    (P.placesOf base roots line).length ≤ roots.length + 1 := by
  unfold placesOf
  split
  · simp
  · exact Nat.zero_le _

theorem mem_placesOf {roots : List Path} {lines : List Text} {t : Path}
    (h : t ∈ P.targetsIn base roots lines) :
    ∃ line ∈ lines, t ∈ P.placesOf base roots line := by
  obtain ⟨line, hline, ht⟩ := List.mem_filterMap.mp h
  obtain ⟨m, hm, rfl⟩ := Option.map_eq_some_iff.mp ht
  refine ⟨line, hline, ?_⟩
  obtain ⟨dir, hdir, hplace⟩ := P.targetIn_eq_pathUnder base roots m
  unfold placesOf
  rw [hm, hplace]
  exact List.mem_map_of_mem (f := (m.pathUnder · P.layout)) hdir

theorem length_flatMap_placesOf_le (roots : List Path) (lines : List Text) :
    (lines.flatMap (P.placesOf base roots)).length ≤ lines.length * (roots.length + 1) := by
  induction lines with
  | nil => simp
  | cons line lines ih =>
    rw [List.flatMap_cons, List.length_append, List.length_cons, Nat.add_one_mul, Nat.add_comm]
    exact Nat.add_le_add ih (P.length_placesOf_le base roots line)

/-- The depth that a visit is given suffices, whatever has been found before it. -/
theorem visitWithin_depthBound (r : Resolution) (file : Path) :
    P.visitWithin base (P.depthBound base r) file r = some (P.visit base file r) := by
  let files := file.normalize :: P.allImportLines.flatMap (P.placesOf base (r.rootsOf P base))
  have htotal : ∃ v, P.visitWithin base (P.depthBound base r) file r = some v := by
    have hfiles : ∀ f lines, P.disk.importLines? P.chunk f = some lines →
        ∀ t ∈ P.targetsIn base (r.rootsOf P base) lines, t ∈ files := by
      intro f lines hl t ht
      obtain ⟨line, hline, ht⟩ := P.mem_placesOf base ht
      exact List.mem_cons_of_mem _ (List.mem_flatMap.mpr ⟨line, P.mem_allImportLines hl hline, ht⟩)
    refine visitWithin_total hfiles _ file r rfl (List.mem_cons_self ..) ?_
    refine Nat.lt_of_le_of_lt (List.length_filter_le _ _) ?_
    have := P.length_flatMap_placesOf_le base (r.rootsOf P base) P.allImportLines
    show _ + 1 < P.allImportLines.length * ((r.rootsOf P base).length + 1) + 2
    omega
  obtain ⟨v, hv⟩ := htotal
  unfold visit
  rw [hv]
  rfl

theorem visitWithin_of_le {depth : Nat} {r : Resolution} (hd : P.depthBound base r ≤ depth) (file : Path) :
    P.visitWithin base depth file r = some (P.visit base file r) :=
  visitWithin_mono _ _ hd _ _ _ (P.visitWithin_depthBound base r file)

end

/-! ## The recursion without the depth -/

section
variable {P : Project} {base file : Path} {r : Resolution}

theorem visit_eq_of_visitWithin {depth : Nat} {v : Visit} (h : P.visitWithin base depth file r = some v) :
    P.visit base file r = v := by
  have hvisit := P.visitWithin_depthBound base r file
  rcases Nat.le_total depth (P.depthBound base r) with hle | hle
  · rw [visitWithin_mono _ _ hle _ _ _ h] at hvisit
    exact (Option.some.inj hvisit).symm
  · rw [visitWithin_mono _ _ hle _ _ _ hvisit] at h
    exact Option.some.inj h

theorem visits_visit (P : Project) (base file : Path) (r : Resolution) :
    Visits P base file.normalize r (P.visit base file r) :=
  visits_of_visitWithin _ _ _ _ (P.visitWithin_depthBound base r file)

def visitAll (P : Project) (base : Path) (files : List Path) (r : Resolution) : Resolution :=
  files.foldl (fun r p => (P.visit base p r).settle) r

theorem visitAll_eq_of_visitAllWithin {depth : Nat} : ∀ {files : List Path} {r after : Resolution},
    P.visitAllWithin base depth files r = some after → P.visitAll base files r = after
  | [], _, _, h => by
    cases h
    rfl
  | p :: files, r, after, h => by
    rw [visitAllWithin_cons] at h
    obtain ⟨v, hv, h⟩ := Option.bind_eq_some_iff.mp h
    rw [visitAll, List.foldl_cons, visit_eq_of_visitWithin hv]
    exact visitAll_eq_of_visitAllWithin h

theorem visit_eq (P : Project) (base file : Path) (r : Resolution) :
    P.visit base file r =
      if r.visited.contains file.normalize then ⟨file.normalize, .resolved, r⟩
      else match P.disk.importLines? P.chunk file.normalize with
        | none => ⟨file.normalize, .unreadable, r.mark file.normalize⟩
        | some lines =>
          let entered := P.enterImports base file.normalize (r.mark file.normalize) lines
          ⟨file.normalize, .resolved,
            r.leave (P.visitAll base (P.sourcesIn entered.2.toList) entered.1)⟩ := by
  have h := P.visitWithin_of_le base (Nat.le_succ (P.depthBound base r)) file
  rw [visitWithin_succ] at h
  by_cases hv : r.visited.contains file.normalize = true
  · rw [if_pos hv] at h ⊢
    exact (Option.some.inj h).symm
  · rw [if_neg hv] at h ⊢
    cases hl : P.disk.importLines? P.chunk file.normalize with
    | none =>
      rw [hl] at h
      exact (Option.some.inj h).symm
    | some lines =>
      rw [hl] at h
      obtain ⟨after, hafter, hvisit⟩ := Option.map_eq_some_iff.mp h
      rw [← hvisit, ← visitAll_eq_of_visitAllWithin hafter]

theorem visit_normalize (P : Project) (base file : Path) (r : Resolution) :
    P.visit base file.normalize r = P.visit base file r := by
  rw [visit_eq, visit_eq P base file, Path.normalize_normalize]

end

/-! ## Walks -/

def baseOf (P : Project) (entry : Path) : Option Path → Except EntryError Path
  | some base => .ok base.normalize
  | none => P.disk.baseDirectory entry.normalize

/-- A walk of which the entry is not visited yet is one visit. -/
theorem walkFrom_eq (P : Project) {seed : Resolution} {entry : Path}
    (h : seed.visited.contains entry.normalize = false) (base? : Option Path) :
    P.walkFrom seed entry base? =
      (fun base => (P.visit base entry seed).resolution.report entry.normalize base) <$> P.baseOf entry base? := by
  have hvisit : ∀ base, P.visit base entry.normalize seed = P.visit base entry seed :=
    fun base => P.visit_normalize base entry seed
  unfold walkFrom
  simp only [h, Bool.false_eq_true, if_false, hvisit]
  cases base? with
  | some base => rfl
  | none => exact bind_pure_comp _ _

theorem walk_of_baseOf {P : Project} {entry base : Path} {base? : Option Path}
    (h : P.baseOf entry base? = .ok base) :
    P.walk entry base? = .ok ((P.visit base entry {}).resolution.report entry.normalize base) := by
  unfold walk
  rw [P.walkFrom_eq rfl, h]
  rfl

end Project

end ElmImports
