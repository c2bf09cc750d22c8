import ElmImports.Disk.Change
import ElmImports.Proofs.Walk.Afresh

/-!
# When source roots are asked for

However many visits follow one another, with whatever base directories, the roots of a directory are asked for once
at most, and never if every import that is resolved against the directory lies below it. Where an import leads does
not depend on what has been asked before.
-/

namespace ElmImports.Project

/-! ## Where an import leads -/

section
variable (P : Project) (base : Path) (m : ModuleName)

def placeOf : Path :=
  if P.disk.isFile (m.pathUnder base P.layout) then m.pathUnder base P.layout
  else match P.sourceRoots.override? P.disk m base P.layout with
    | some root => m.pathUnder root P.layout
    | none => m.pathUnder base P.layout

/-- `root` is the first declared root, other than the base directory, below which the module's file exists. -/
def FirstHolding (root : Path) : Prop :=
  ∃ before after, P.sourceRoots P.disk base = before ++ root :: after ∧
    (root == base) = false ∧ P.disk.isFile (m.pathUnder root P.layout) = true ∧
    ∀ other ∈ before, (other == base) = true ∨ P.disk.isFile (m.pathUnder other P.layout) = false

variable {P base}

theorem targetIn_eq_placeOf (hbase : base.IsNormal) :
    P.targetIn base (P.sourceRoots P.disk base) m = P.placeOf base m := by
  have hroot : P.disk.rootHolding? (P.sourceRoots P.disk base) m base P.layout =
      P.sourceRoots.override? P.disk m base P.layout := by
    unfold SourceRoots.override?
    rw [show base.normalize = base from hbase]
  unfold targetIn placeOf
  exact hroot ▸ rfl

theorem override?_eq_some_iff (hbase : base.IsNormal) {root : Path} :
    P.sourceRoots.override? P.disk m base P.layout = some root ↔ P.FirstHolding base m root := by
  have hnormal : base.normalize = base := hbase
  unfold SourceRoots.override? Disk.rootHolding? FirstHolding
  rw [hnormal, List.find?_eq_some_iff_append]
  constructor
  · rintro ⟨hroot, before, after, hsplit, hbefore⟩
    obtain ⟨hne, hfile⟩ := Bool.and_eq_true_iff.mp hroot
    refine ⟨before, after, hsplit, by simpa [bne] using hne, hfile, fun other hother => ?_⟩
    have hnot := hbefore other hother
    simp only [bne, Bool.not_and, Bool.not_not, Bool.or_eq_true, Bool.not_eq_true'] at hnot
    exact hnot
  · rintro ⟨before, after, hsplit, hne, hfile, hbefore⟩
    refine ⟨Bool.and_eq_true_iff.mpr ⟨by rw [bne, hne]; rfl, hfile⟩, before, after, hsplit, fun other hother => ?_⟩
    simp only [bne, Bool.not_and, Bool.not_not, Bool.or_eq_true, Bool.not_eq_true']
    exact hbefore other hother

end

/-! ## What one visit adds -/

/-- Besides what `since` has, `r` has scanned the files `more` and drawn the edges `drawn`, all for one base
directory. -/
structure Adds (P : Project) (base : Path) (since r : Resolution) (more : List Path) (drawn : List (Path × Path)) :
    Prop where
  scanned : r.scanned.toList = since.scanned.toList ++ more
  edges : r.edges.toList = since.edges.toList ++ drawn
  placed : ∀ f ∈ more, ∀ m, P.ImportsModule f m →
    (f, P.placeOf base m) ∈ drawn ∨ r.unreadable.contains (P.placeOf base m) = true
  imported : ∀ e ∈ drawn, e.1 ∈ more ∧ ∃ m, P.ImportsModule e.1 m ∧ e.2 = P.placeOf base m
  asked : ∀ b ∈ r.asked.toList, b ∈ since.asked.toList ∨
    b = base ∧ ∃ f ∈ more, ∃ m, P.ImportsModule f m ∧ P.disk.isFile (m.pathUnder base P.layout) = false

section
variable {P : Project} {base file : Path} {since r r' : Resolution} {more new : List Path} {drawn : List (Path × Path)}
  {lines : List Text}

theorem adds_nothing (P : Project) (base : Path) (r : Resolution) : Adds P base r r [] [] where
  scanned := (List.append_nil _).symm
  edges := (List.append_nil _).symm
  placed := nofun
  imported := nofun
  asked _ h := .inl h

theorem ImportsModule.lines_eq {f : Path} {m : ModuleName} (h : P.ImportsModule f m)
    (hl : P.disk.importLines? P.chunk f = some lines) : ∃ line ∈ lines, ModuleName.ofImportLine? line = some m := by
  obtain ⟨lines', hl', hm⟩ := h
  obtain rfl := Option.some.inj (hl.symm.trans hl')
  exact hm

theorem asked_enterImports (P : Project) (base file : Path) (r : Resolution) (lines : List Text) :
    ∀ b ∈ (P.enterImports base file r lines).1.asked.toList,
      b ∈ r.asked.toList ∨ b = base ∧ ∃ line ∈ lines, P.LineMisses base line := by
  refine @enterImports_keeps P base file lines (fun r' => ∀ b ∈ r'.asked.toList,
    b ∈ r.asked.toList ∨ b = base ∧ ∃ line ∈ lines, P.LineMisses base line) ?_ r fun b hb => .inl hb
  intro line hline r₁ new h b hb
  obtain ⟨hlearns, hmisses | hsame⟩ := P.learns_enterImport base file r₁ new line
  · cases hlearns with
    | nothing _ hasked =>
      rw [hasked] at hb
      exact h b hb
    | roots _ _ hasked =>
      rw [hasked, Array.toList_push] at hb
      rcases List.mem_append.mp hb with hb | hb
      · exact h b hb
      · exact .inr ⟨List.mem_singleton.mp hb, line, hline, hmisses⟩
  · rw [hsame] at hb
    exact h b hb

theorem Cached.targetsIn (h : Cached P r) (hbase : base.IsNormal) (lines : List Text) :
    P.targetsIn base (r.rootsOf P base) lines =
      lines.filterMap fun line => (ModuleName.ofImportLine? line).map (P.placeOf base) := by
  rw [h.rootsOf hbase]
  unfold Project.targetsIn
  congr 1
  funext line
  congr 1
  funext m
  exact targetIn_eq_placeOf m hbase

theorem Cached.mem_targetsIn (h : Cached P r) (hbase : base.IsNormal)
    (hl : P.disk.importLines? P.chunk file = some lines) {t : Path} :
    t ∈ P.targetsIn base (r.rootsOf P base) lines ↔ ∃ m, P.ImportsModule file m ∧ t = P.placeOf base m := by
  rw [h.targetsIn hbase, List.mem_filterMap]
  constructor
  · rintro ⟨line, hline, ht⟩
    obtain ⟨m, hm, rfl⟩ := Option.map_eq_some_iff.mp ht
    exact ⟨m, ⟨lines, hl, line, hline, hm⟩, rfl⟩
  · rintro ⟨m, hm, rfl⟩
    obtain ⟨line, hline, hm⟩ := hm.lines_eq hl
    exact ⟨line, hline, by rw [hm]; rfl⟩

theorem Adds.asked_append (h : Adds P base since r more drawn) (file : Path) :
    ∀ b ∈ r.asked.toList, b ∈ since.asked.toList ∨ b = base ∧
      ∃ f ∈ more ++ [file], ∃ m, P.ImportsModule f m ∧ P.disk.isFile (m.pathUnder base P.layout) = false :=
  fun b hb => (h.asked b hb).imp_right fun ⟨hb, f, hf, hm⟩ => ⟨hb, f, List.mem_append_left _ hf, hm⟩

theorem Adds.failed (h : Adds P base since r more drawn) (hl : P.disk.importLines? P.chunk file = none) :
    Adds P base since (r.mark file) (more ++ [file]) drawn := by
  have hscanned : (r.mark file).scanned.toList = r.scanned.toList ++ [file] := Array.toList_push
  refine ⟨?_, h.edges, fun f hf m hm => ?_, fun e he => ?_, h.asked_append file⟩
  · rw [hscanned, h.scanned, List.append_assoc]
  · rcases List.mem_append.mp hf with hf | hf
    · exact h.placed f hf m hm
    · obtain rfl := List.mem_singleton.mp hf
      obtain ⟨lines, hlines, -⟩ := hm
      cases hl.symm.trans hlines
  · exact (h.imported e he).imp_left (List.mem_append_left _)

/-- What the imports of one file add: an edge for each that is not known to be unreadable. -/
theorem Adds.entered (h : Adds P base since r more drawn) (hr : Cached P r) (hbase : base.IsNormal)
    (hl : P.disk.importLines? P.chunk file = some lines) :
    Adds P base since (P.enterImports base file (r.mark file) lines).1 (more ++ [file])
      (drawn ++ (P.keptTargets base (r.mark file) lines).map (file, ·)) := by
  have he := P.entered_enterImports base file (r.mark file) lines
  have hscanned : (r.mark file).scanned.toList = r.scanned.toList ++ [file] := Array.toList_push
  have hfile : file ∈ more ++ [file] := List.mem_append_right _ List.mem_cons_self
  refine ⟨?_, ?_, fun f hf m hm => ?_, fun e hmem => ?_, fun b hb => ?_⟩
  · rw [he.scanned, hscanned, h.scanned, List.append_assoc]
  · rw [he.edges, ← List.append_assoc, ← h.edges]
    rfl
  · rw [he.unreadable]
    rcases List.mem_append.mp hf with hf | hf
    · exact (h.placed f hf m hm).imp_left (List.mem_append_left _)
    · obtain rfl := List.mem_singleton.mp hf
      have htarget := ((hr.mark f).mem_targetsIn hbase hl).mpr ⟨m, hm, rfl⟩
      cases hu : (r.mark f).unreadable.contains (P.placeOf base m) with
      | true => exact .inr rfl
      | false =>
        refine .inl (List.mem_append_right _ (List.mem_map_of_mem (List.mem_filter.mpr ⟨htarget, ?_⟩)))
        rw [hu]
        rfl
  · rcases List.mem_append.mp hmem with hmem | hmem
    · exact (h.imported e hmem).imp_left (List.mem_append_left _)
    · obtain ⟨t, ht, rfl⟩ := List.mem_map.mp hmem
      exact ⟨hfile, ((hr.mark file).mem_targetsIn hbase hl).mp (List.mem_filter.mp ht).1⟩
  · rcases P.asked_enterImports base file (r.mark file) lines b hb with hb | ⟨hb, line, hline, m, hm, hmissing⟩
    · exact h.asked_append file b hb
    · exact .inr ⟨hb, file, hfile, m, ⟨lines, hl, line, hline, hm⟩, hmissing⟩

theorem Adds.setAside (h : Adds P base since r more drawn) (file : Path) :
    Adds P base since (r.setAside file) more drawn :=
  { h with
    placed := fun f hf m hm => (h.placed f hf m hm).imp_right fun hu =>
      contains_of_subset (toList_subset_insert r.unreadable file) hu }

end

theorem stepwise_adds (P : Project) {base : Path} (hbase : base.IsNormal) (since : Resolution) :
    Stepwise P base fun r => Cached P r ∧ ∃ more drawn, Adds P base since r more drawn where
  failed := fun hl ⟨hr, _, _, h⟩ => ⟨hr.mark _, _, _, h.failed hl⟩
  entered := fun hl ⟨hr, _, _, h⟩ => ⟨(hr.mark _).enterImports hbase _ _, _, _, h.entered hr hbase hl⟩
  setAside := fun file ⟨hr, _, _, h⟩ => ⟨hr.congr rfl rfl, _, _, h.setAside file⟩
  dropped := fun ⟨hr, _, _, h⟩ => ⟨hr.congr rfl rfl, _, _, { h with }⟩

/-! ## Many visits -/

section
variable {P : Project} {base : Path} {r : Resolution}

theorem Cached.exists_adds (h : Cached P r) (hbase : base.IsNormal) (file : Path) :
    ∃ more drawn, Adds P base r (P.visit base file r).resolution more drawn :=
  ((stepwise_adds P hbase r).visit ⟨h, _, _, adds_nothing P base r⟩ file).2

def VisitMisses (P : Project) (base file : Path) (r : Resolution) : Prop :=
  ∃ more, (P.visit base file r).resolution.scanned.toList = r.scanned.toList ++ more ∧
    ∃ f ∈ more, ∃ m, P.ImportsModule f m ∧ P.disk.isFile (m.pathUnder base P.layout) = false

theorem asked_afterVisits : ∀ (calls : List (Path × Path)) {r : Resolution}, Cached P r →
    (∀ call ∈ calls, call.1.IsNormal) → ∀ b ∈ (P.afterVisits calls r).asked.toList, b ∈ r.asked.toList ∨
      ∃ before file after, calls = before ++ (b, file) :: after ∧ P.VisitMisses b file (P.afterVisits before r)
  | [], _, _, _, _, hb => .inl hb
  | (base, file) :: calls, r, h, hcalls, b, hb => by
    obtain ⟨hbase, hcalls⟩ := List.forall_mem_cons.mp hcalls
    rcases asked_afterVisits calls (h.visit hbase file) hcalls b hb with hb | ⟨before, file', after, rfl, hmisses⟩
    · obtain ⟨more, drawn, hadds⟩ := h.exists_adds hbase file
      obtain hb | ⟨rfl, hmissing⟩ := hadds.asked b hb
      · exact .inl hb
      · exact .inr ⟨[], file, calls, rfl, more, hadds.scanned, hmissing⟩
    · exact .inr ⟨(base, file) :: before, file', after, rfl, hmisses⟩

end

/-- Visits that remember source roots find what visits find that ask for them at every import, call by call. What is
imported leads to its place, and roots are asked for once, for a directory below which some module is missing. -/
theorem visit_eq_visitAfresh (P : Project) (calls : List (Path × Path)) (hcalls : ∀ call ∈ calls, call.1.IsNormal) :
    (∀ before base file after, calls = before ++ (base, file) :: after →
      let r := P.afterVisits before {}
      let s := P.afterVisitsAfresh before {}
      visitVia (P.targetAfresh base) P (P.depthBound base s) file s = some (P.visitAfresh base file s) ∧
        P.visitAfresh base file s = (P.visit base file r).forget ∧
        (∃ more drawn, Adds P base r (P.visit base file r).resolution more drawn) ∧
        ∀ m root, P.sourceRoots.override? P.disk m base P.layout = some root ↔ P.FirstHolding base m root) ∧
      (P.afterVisits calls {}).asked.toList.Pairwise (fun b b' => (b == b') = false) ∧
      ∀ b ∈ (P.afterVisits calls {}).asked.toList, ∃ before file after, calls = before ++ (b, file) :: after ∧
        P.VisitMisses b file (P.afterVisits before {}) := by
  refine ⟨?_, ((cached_empty P).afterVisits calls hcalls).once, fun b hb => ?_⟩
  · rintro before base file after rfl
    obtain ⟨hbefore, hlast⟩ := List.forall_mem_append.mp hcalls
    have hbase : base.IsNormal := hlast (base, file) List.mem_cons_self
    have hr := (cached_empty P).afterVisits before hbefore
    have hforget : P.afterVisitsAfresh before {} = (P.afterVisits before {}).forget :=
      afterVisitsAfresh_forget before (cached_empty P) hbefore
    dsimp only
    rw [hforget, visitAfresh_forget hr hbase]
    exact ⟨visitVia_targetAfresh hr hbase file, rfl, hr.exists_adds hbase file,
      fun m root => override?_eq_some_iff m hbase⟩
  · obtain hb | hmisses := asked_afterVisits calls (cached_empty P) hcalls b hb
    · cases hb
    · exact hmisses

def sharedRoot : Project :=
  let name (s : String) := Utf8.encode s.toList
  { disk := ((((Disk.empty.makeFile [name "Main.elm", name "src"] (name "import Util\nimport Page\n")).makeFile
      [name "Page.elm", name "src"] (name "import Gone\nimport Util\n")).makeFile
      [name "Util.elm", name "lib"] (name "import Base\n")).makeFile [name "Base.elm", name "lib"] []).makeFile
      [name "elm.json"] (name "\x7b\"source-directories\":[\"lib\"]\x7d") }

theorem visit_eq_visitAfresh_sharedRoot :
    let calls := [(Path.ofString "lib", Path.ofString "lib/Util.elm"), (.ofString "src", .ofString "src/Page.elm"),
      (.ofString "src", .ofString "src/Main.elm")]
    (∀ call ∈ calls, call.1.IsNormal) ∧
      (∀ before base file after, calls = before ++ (base, file) :: after →
        sharedRoot.visitAfresh base file (sharedRoot.afterVisitsAfresh before {}) =
          (sharedRoot.visit base file (sharedRoot.afterVisits before {})).forget) ∧
      (∀ b ∈ (sharedRoot.afterVisits calls {}).asked.toList, ∃ before file after,
        calls = before ++ (b, file) :: after ∧ sharedRoot.VisitMisses b file (sharedRoot.afterVisits before {})) ∧
      (sharedRoot.afterVisits calls {}).asked.toList = [.ofString "src"] := by
  intro calls
  have hcalls : ∀ call ∈ calls, call.1.IsNormal :=
    List.forall_mem_cons.mpr ⟨rfl, List.forall_mem_cons.mpr ⟨rfl, List.forall_mem_cons.mpr ⟨rfl,
      List.forall_mem_nil _⟩⟩⟩
  obtain ⟨hsame, -, hasked⟩ := visit_eq_visitAfresh sharedRoot calls hcalls
  refine ⟨hcalls, fun before base file after h => (hsame before base file after h).2.1, hasked, ?_⟩
  exact Path.map_bytes_inj (by decide +kernel)

end ElmImports.Project
