import ElmImports.Proofs.Walk.Dependencies
import ElmImports.Walk.Visit

/-!
# Entering the imports of a file

While a file's imports are entered, the source roots of the base directory stay what they were when first
seen, so that the target of an import depends on the module only. Every target that is not known to be
unreadable becomes an edge, and those that were not known become dependencies, in order.
-/

namespace ElmImports

namespace Resolution

def rootsOf (r : Resolution) (P : Project) (base : Path) : List Path :=
  (r.lookUp P base).1

theorem rootsOf_congr {r r' : Resolution} (h : r'.roots = r.roots) (P : Project) (base : Path) :
    r'.rootsOf P base = r.rootsOf P base := by
  unfold rootsOf lookUp
  rw [h]
  cases r.roots[base]? <;> rfl

theorem lookUp_eq (r : Resolution) (P : Project) (base : Path) :
    ∃ roots asked, r.lookUp P base = (r.rootsOf P base, { r with roots, asked }) ∧
      ∀ r' : Resolution, r'.roots = roots → r'.rootsOf P base = r.rootsOf P base := by
  cases h : r.roots[base]? with
  | some dirs =>
    refine ⟨r.roots, r.asked, ?_, fun r' hr' => rootsOf_congr hr' P base⟩
    unfold rootsOf lookUp
    rw [h]
  | none =>
    refine ⟨r.roots.insert base (P.sourceRoots P.disk base), r.asked.push base, ?_, fun r' hr' => ?_⟩
    · unfold rootsOf lookUp
      rw [h]
    · unfold rootsOf lookUp
      rw [hr', h, Std.TreeMap.getElem?_insert_self]

end Resolution

namespace Project

def ImportsModule (P : Project) (file : Path) (m : ModuleName) : Prop :=
  ∃ lines, P.disk.importLines? P.chunk file = some lines ∧ ∃ line ∈ lines, ModuleName.ofImportLine? line = some m

/-- The file that an import of a module goes to, the source roots being given. -/
def targetIn (P : Project) (base : Path) (roots : List Path) (m : ModuleName) : Path :=
  if P.disk.isFile (m.pathUnder base P.layout) then m.pathUnder base P.layout
  else match P.disk.rootHolding? roots m base P.layout with
    | some root => m.pathUnder root P.layout
    | none => m.pathUnder base P.layout

def targetsIn (P : Project) (base : Path) (roots : List Path) (lines : List Text) : List Path :=
  lines.filterMap fun line => (ModuleName.ofImportLine? line).map (P.targetIn base roots)

variable {P : Project} {base file : Path}

/-- An import goes where its module lies below the base directory or below a source root. -/
theorem targetIn_eq_pathUnder (P : Project) (base : Path) (roots : List Path) (m : ModuleName) :
    ∃ dir ∈ base :: roots, P.targetIn base roots m = m.pathUnder dir P.layout := by
  unfold targetIn
  split
  · exact ⟨base, List.mem_cons_self, rfl⟩
  · split
    · rename_i root hroot
      exact ⟨root, List.mem_cons_of_mem _ (List.mem_of_find?_eq_some hroot), rfl⟩
    · exact ⟨base, List.mem_cons_self, rfl⟩

theorem isNormal_targetIn (roots : List Path) (m : ModuleName) : (P.targetIn base roots m).IsNormal := by
  obtain ⟨dir, -, hdir⟩ := P.targetIn_eq_pathUnder base roots m
  rw [hdir]
  exact Path.isNormal_normalize _

theorem isNormal_of_mem_targetsIn {roots : List Path} {lines : List Text} {t : Path}
    (h : t ∈ P.targetsIn base roots lines) : t.IsNormal := by
  obtain ⟨line, -, ht⟩ := List.mem_filterMap.mp h
  obtain ⟨m, -, rfl⟩ := Option.map_eq_some_iff.mp ht
  exact isNormal_targetIn roots m

theorem target_eq (P : Project) (base : Path) (m : ModuleName) (r : Resolution) :
    ∃ roots asked, P.target base m r = (P.targetIn base (r.rootsOf P base) m, { r with roots, asked }) ∧
      ∀ r' : Resolution, r'.roots = roots → r'.rootsOf P base = r.rootsOf P base := by
  by_cases hf : P.disk.isFile (m.pathUnder base P.layout) = true
  · refine ⟨r.roots, r.asked, ?_, fun r' hr' => Resolution.rootsOf_congr hr' P base⟩
    unfold target targetIn
    rw [if_pos hf, if_pos hf]
  · obtain ⟨roots, asked, he, hr⟩ := r.lookUp_eq P base
    refine ⟨roots, asked, ?_, hr⟩
    unfold target targetIn
    rw [if_neg hf, if_neg hf, he]
    dsimp only
    cases P.disk.rootHolding? (r.rootsOf P base) m base P.layout <;> rfl

/-! ## What entering changes -/

def keptTargets (P : Project) (base : Path) (r : Resolution) (lines : List Text) : List Path :=
  (P.targetsIn base (r.rootsOf P base) lines).filter (! r.unreadable.contains ·)

/-- `r'` is `r` after the import lines of `file`, of whose targets `new` were not known. -/
structure Entered (P : Project) (base file : Path) (r : Resolution) (lines : List Text) (r' : Resolution)
    (new : List Path) : Prop where
  visited : r'.visited = r.visited
  scanned : r'.scanned = r.scanned
  unreadable : r'.unreadable = r.unreadable
  roots : r'.rootsOf P base = r.rootsOf P base
  edges : r'.edges.toList = r.edges.toList ++ (P.keptTargets base r lines).map (file, ·)
  known : r'.known.toList = r.known.toList ++ new
  valid : r.known.Valid → r'.known.Valid
  covers : r.known.Valid → ∀ t ∈ P.keptTargets base r lines, t ∈ r'.known.toList
  new_kept : ∀ t ∈ new, t ∈ P.keptTargets base r lines

theorem keptTargets_append (r : Resolution) (lines lines' : List Text) :
    P.keptTargets base r (lines ++ lines') = P.keptTargets base r lines ++ P.keptTargets base r lines' := by
  unfold keptTargets targetsIn
  rw [List.filterMap_append, List.filter_append]

theorem keptTargets_congr {r r' : Resolution} (hu : r'.unreadable = r.unreadable)
    (hr : r'.rootsOf P base = r.rootsOf P base) (lines : List Text) :
    P.keptTargets base r' lines = P.keptTargets base r lines := by
  unfold keptTargets
  rw [hu, hr]

theorem Entered.refl (r : Resolution) : Entered P base file r [] r [] where
  visited := rfl
  scanned := rfl
  unreadable := rfl
  roots := rfl
  edges := by simp [keptTargets, targetsIn]
  known := by simp
  valid := id
  covers := fun _ t ht => by cases ht
  new_kept := fun t ht => by cases ht

theorem Entered.trans {r r₁ r₂ : Resolution} {lines₁ lines₂ : List Text} {new₁ new₂ : List Path}
    (h₁ : Entered P base file r lines₁ r₁ new₁) (h₂ : Entered P base file r₁ lines₂ r₂ new₂) :
    Entered P base file r (lines₁ ++ lines₂) r₂ (new₁ ++ new₂) := by
  have hk := keptTargets_congr h₁.unreadable h₁.roots lines₂
  refine ⟨h₂.visited.trans h₁.visited, h₂.scanned.trans h₁.scanned, h₂.unreadable.trans h₁.unreadable,
    h₂.roots.trans h₁.roots, ?_, ?_, h₂.valid ∘ h₁.valid, ?_, ?_⟩
  · rw [h₂.edges, h₁.edges, hk, keptTargets_append, List.map_append, List.append_assoc]
  · rw [h₂.known, h₁.known, List.append_assoc]
  · intro hv t ht
    rw [keptTargets_append] at ht
    rcases List.mem_append.mp ht with ht | ht
    · rw [h₂.known]
      exact List.mem_append_left _ (h₁.covers hv t ht)
    · exact h₂.covers (h₁.valid hv) t (hk ▸ ht)
  · intro t ht
    rw [keptTargets_append]
    rcases List.mem_append.mp ht with ht | ht
    · exact List.mem_append_left _ (h₁.new_kept t ht)
    · exact List.mem_append_right _ (hk ▸ h₂.new_kept t ht)

theorem entered_enterImport (P : Project) (base file : Path) (r : Resolution) (new : Array Path)
    (line : Text) : ∃ new', Entered P base file r [line] (P.enterImport base file r new line).1 new' ∧
      (P.enterImport base file r new line).2.toList = new.toList ++ new' := by
  unfold enterImport
  cases hm : ModuleName.ofImportLine? line with
  | none =>
    have hk : P.keptTargets base r [line] = [] := by simp [keptTargets, targetsIn, hm]
    exact ⟨[], ⟨rfl, rfl, rfl, rfl, by simp [hk], by simp, id, by simp [hk], by simp⟩, by simp⟩
  | some m =>
    obtain ⟨roots, asked, ht, hroots⟩ := P.target_eq base m r
    dsimp only
    rw [ht]
    dsimp only
    generalize htarget : P.targetIn base (r.rootsOf P base) m = target
    have hnormal : target.normalize = target := htarget ▸ isNormal_targetIn _ m
    cases hu : r.unreadable.contains target with
    | true =>
      have hk : P.keptTargets base r [line] = [] := by simp [keptTargets, targetsIn, hm, htarget, hu]
      exact ⟨[], ⟨rfl, rfl, rfl, hroots _ rfl, by simp [hk], by simp, id, by simp [hk], by simp⟩, by simp⟩
    | false =>
      have hk : P.keptTargets base r [line] = [target] := by
        simp [keptTargets, targetsIn, hm, htarget, hu]
      cases hi : r.known.insert? target with
      | none =>
        have hin (h : r.known.Valid) : target ∈ r.known.toList :=
          hnormal ▸ (h.insert?_eq_none_iff target).mp hi
        exact ⟨[], ⟨rfl, rfl, rfl, hroots _ rfl, by simp [hk], by simp, id, by simpa [hk] using hin, by simp⟩,
          by simp⟩
      | some known =>
        have hl : known.toList = r.known.toList ++ [target] := by
          rw [Dependencies.toList_insert? hi, hnormal]
        exact ⟨[target], ⟨rfl, rfl, rfl, hroots _ rfl, by simp [hk], hl, fun h => h.of_insert? hi,
          by simp [hk, hl], by simp [hk]⟩, by simp⟩

theorem entered_foldl (P : Project) (base file : Path) (lines : List Text) :
    ∀ (r : Resolution) (new : Array Path),
    ∃ new', Entered P base file r lines
        (lines.foldl (fun (r, new) line => P.enterImport base file r new line) (r, new)).1 new' ∧
      (lines.foldl (fun (r, new) line => P.enterImport base file r new line) (r, new)).2.toList =
        new.toList ++ new' := by
  induction lines with
  | nil => intro r new; exact ⟨[], .refl r, by simp⟩
  | cons line lines ih =>
    intro r new
    obtain ⟨first, hfirst, hl⟩ := entered_enterImport P base file r new line
    obtain ⟨rest, hrest, hls⟩ := ih _ (P.enterImport base file r new line).2
    refine ⟨first ++ rest, hfirst.trans hrest, ?_⟩
    rw [List.foldl_cons, hls, hl, List.append_assoc]

theorem entered_enterImports (P : Project) (base file : Path) (r : Resolution) (lines : List Text) :
    Entered P base file r lines (P.enterImports base file r lines).1
      (P.enterImports base file r lines).2.toList := by
  obtain ⟨new, hnew, hl⟩ := entered_foldl P base file lines r #[]
  rw [List.nil_append] at hl
  exact hl ▸ hnew

end Project

end ElmImports
