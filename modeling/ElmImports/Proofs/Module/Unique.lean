import ElmImports.Proofs.Module.Kind
import ElmImports.Proofs.Path.Below
import ElmImports.Proofs.Path.Unique
import ElmImports.Proofs.Text.Pieces

/-!
# Files of different modules

A module's file lies as many names below the base directory as its name has segments that are not empty, and the last
of these names ends in the extension. A segment holds no dot, so that the segments and the extension can be read back
from the names: below one directory, modules share a file just if they have the same segments and the same extension.
-/

namespace ElmImports

open ElmImports.Path

structure IsExtension (ext : Text) : Prop where
  ne_nil : ext ≠ []
  undotted : Undotted ext
  slash : '/' ∉ ext

structure Layout.IsProper (layout : Layout) : Prop where
  source : IsExtension layout.sourceExtension
  native : IsExtension layout.nativeExtension

theorem Layout.IsProper.extension {layout : Layout} (h : layout.IsProper) (m : ModuleName) :
    IsExtension (m.extension layout) := by
  unfold ModuleName.extension
  split
  · exact h.native
  · exact h.source

namespace ModuleName

def filled (m : ModuleName) : List Text :=
  m.segments.filter (! ·.isEmpty)

/-- The names that lead to the module's file: the segments that are not empty, with a dot and the extension behind the
last of them. If there is none, a dot and the extension are the only name. -/
def fileNames (m : ModuleName) (layout : Layout) : List Bytes :=
  m.names.dropLast ++ [m.names.getLast?.getD [] ++ dot :: Utf8.encode (m.extension layout)]

section
variable {m m' : ModuleName} {layout : Layout}

theorem slash_not_mem_segment (h : '/' ∉ m.text) : ∀ s ∈ m.segments, '/' ∉ s :=
  fun _ hs hslash => h (Pieces.mem_of_mem_splitOn hs hslash)

/-! ## Below the base directory -/

theorem fileName?_stem (hslash : ∀ s ∈ m.segments, '/' ∉ s) : m.stem.fileName? = m.names.getLast? := by
  unfold fileName?
  rw [components_stem hslash, List.getLast?_map]
  cases m.names.getLast? <;> rfl

theorem components_relativePath_fileNames (hslash : ∀ s ∈ m.segments, '/' ∉ s)
    (hext : IsExtension (m.extension layout)) :
    (m.relativePath layout).components = (m.fileNames layout).map .name := by
  have hcomponents := components_withFileName (isStep_fileName hext.ne_nil hext.undotted hext.slash) m.stem
  have hdirs : (if m.stem.fileName?.isSome then m.stem.components.dropLast else m.stem.components) =
      m.names.dropLast.map .name := by
    rw [fileName?_stem hslash, components_stem hslash, List.map_dropLast]
    cases m.names with
    | nil => rfl
    | cons x xs => rfl
  have hlast : m.fileName layout = m.names.getLast?.getD [] ++ dot :: Utf8.encode (m.extension layout) := by
    unfold fileName
    rw [fileName?_stem hslash]
  have hrelative : m.relativePath layout = m.stem.withFileName (m.fileName layout) := rfl
  unfold fileNames
  rw [hrelative, hcomponents, hdirs, hlast, List.map_append, List.map_singleton]

section
variable (hm : '/' ∉ m.text) (hext : IsExtension (m.extension layout))
include hm hext

theorem isAbsolute_relativePath : (m.relativePath layout).isAbsolute = false := by
  rw [Bool.eq_false_iff, ne_eq, isAbsolute_iff, components_relativePath_fileNames (slash_not_mem_segment hm) hext]
  simp

theorem steps_join_fileNames (base : Path) : (base.join (m.relativePath layout)).steps =
    ((m.fileNames layout).map .name).reverse ++ base.steps := by
  rw [steps_join (isAbsolute_relativePath hm hext), components_relativePath_fileNames (slash_not_mem_segment hm) hext,
    foldl_follow_names]

theorem components_pathUnder_fileNames (base : Path) : (m.pathUnder base layout).components =
    base.steps.reverse ++ (m.fileNames layout).map .name := by
  have hne : m.fileNames layout ≠ [] := List.append_ne_nil_of_right_ne_nil _ (List.cons_ne_nil _ _)
  unfold pathUnder
  rw [components_normalize, steps_join_fileNames hm hext, if_neg (by simp [hne]), List.reverse_append,
    List.reverse_reverse]

/-- Whatever directory one starts from, the file lies below the place that the base directory leads to. -/
theorem along_pathUnder (base : Path) (cwd : Place) :
    cwd.along (m.pathUnder base layout) = (m.fileNames layout).reverse ++ cwd.along base := by
  have hnames (names : List Bytes) (here : Place) :
      (names.map Component.name).foldl Place.follow here = names.reverse ++ here := by
    induction names generalizing here with
    | nil => rfl
    | cons name names ih =>
      rw [List.map_cons, List.foldl_cons, ih, List.reverse_cons, List.append_assoc]
      rfl
  unfold pathUnder
  rw [Place.along_normalize, along_join (isAbsolute_relativePath hm hext), Place.along_eq_foldl (cwd.along base),
    components_relativePath_fileNames (slash_not_mem_segment hm) hext, hnames]

end

/-! ## Read back from the names -/

theorem mem_names {x : Bytes} (h : x ∈ m.names) : x ≠ [] ∧ dot ∉ x := by
  obtain ⟨s, hs, rfl⟩ := List.mem_map.mp h
  obtain ⟨hs, hne⟩ := List.mem_filter.mp hs
  exact ⟨encode_ne_nil (by simpa using hne), mt dot_mem_encode.mp (dot_not_mem_segment hs)⟩

theorem dot_not_mem_getLast?_names (m : ModuleName) : dot ∉ m.names.getLast?.getD [] := by
  cases hlast : m.names.getLast? with
  | none => exact List.not_mem_nil
  | some x => exact (mem_names (List.mem_of_getLast? hlast)).2

theorem names_inj : m.names = m'.names ↔ m.filled = m'.filled :=
  (List.map_injective_iff.mpr Utf8.encode_injective).eq_iff

theorem getLast?_names_inj (h : m.names.getLast?.getD [] = m'.names.getLast?.getD []) :
    m.names.getLast? = m'.names.getLast? := by
  -- no name is empty, so that the last one can be told from none
  have hne (m : ModuleName) {x : Bytes} (hx : m.names.getLast? = some x) : x ≠ [] :=
    (mem_names (List.mem_of_getLast? hx)).1
  cases hx : m.names.getLast? <;> cases hx' : m'.names.getLast? <;> rw [hx, hx'] at h
  · exact absurd h.symm (hne m' hx')
  · exact absurd h (hne m hx)
  · exact congrArg some h

theorem names_eq_of_dropLast (hdirs : m.names.dropLast = m'.names.dropLast)
    (hlast : m.names.getLast? = m'.names.getLast?) : m.names = m'.names := by
  cases hx : m.names.getLast? with
  | none => rw [List.getLast?_eq_none_iff.mp hx, List.getLast?_eq_none_iff.mp (hlast.symm.trans hx)]
  | some x =>
    rw [← List.dropLast_append_getLast? x hx, ← List.dropLast_append_getLast? x (hlast.symm.trans hx), hdirs]

theorem fileNames_inj : m.fileNames layout = m'.fileNames layout ↔
    m.filled = m'.filled ∧ m.extension layout = m'.extension layout := by
  rw [← names_inj]
  constructor
  · intro h
    obtain ⟨hdirs, hlast⟩ := List.append_inj' h rfl
    obtain ⟨hname, hext⟩ := Pieces.append_sep_inj m.dot_not_mem_getLast?_names m'.dot_not_mem_getLast?_names
      (List.singleton_inj.mp hlast)
    exact ⟨names_eq_of_dropLast hdirs (getLast?_names_inj hname), Utf8.encode_injective hext⟩
  · rintro ⟨hnames, hext⟩
    unfold fileNames
    rw [hnames, hext]

theorem isNormal_pathUnder (m : ModuleName) (base : Path) (layout : Layout) : (m.pathUnder base layout).IsNormal :=
  isNormal_normalize _

theorem pathUnder_beq_iff (hm : '/' ∉ m.text) (hm' : '/' ∉ m'.text) (hext : IsExtension (m.extension layout))
    (hext' : IsExtension (m'.extension layout)) (base : Path) :
    (m.pathUnder base layout == m'.pathUnder base layout) = true ↔
      m.filled = m'.filled ∧ m.extension layout = m'.extension layout := by
  have hname : Function.Injective Component.name := fun _ _ h => Component.name.inj h
  rw [beq_iff, components_pathUnder_fileNames hm hext, components_pathUnder_fileNames hm' hext',
    List.append_right_inj, (List.map_injective_iff.mpr hname).eq_iff, fileNames_inj]

end

/-- The file of a module without slashes in its name is the base directory's normal form with the module's names behind
it, where the directory `.` counts for nothing. So it lies below that directory from wherever one starts, and the file
of another module below the same directory is the same just if the segments that are not empty and the extension are. -/
theorem pathUnder_extends_base {layout : Layout} (hlayout : layout.IsProper) {m : ModuleName} (hm : '/' ∉ m.text)
    (base : Path) :
    (m.pathUnder base layout).IsNormal ∧
      (base.normalize ≠ ⟨[dot]⟩ → (m.pathUnder base layout).components =
        base.normalize.components ++ (m.fileNames layout).map .name) ∧
      (base.normalize = ⟨[dot]⟩ → (m.pathUnder base layout).components = (m.fileNames layout).map .name) ∧
      (∀ cwd : Place,
        cwd.along (m.pathUnder base layout) = (m.fileNames layout).reverse ++ cwd.along base.normalize) ∧
      ∀ m' : ModuleName, '/' ∉ m'.text →
        (m.pathUnder base layout = m'.pathUnder base layout ↔
            (m.pathUnder base layout == m'.pathUnder base layout) = true) ∧
          ((m.pathUnder base layout == m'.pathUnder base layout) = true ↔
            m.filled = m'.filled ∧ m.extension layout = m'.extension layout) := by
  have hext := hlayout.extension m
  have hcomponents := components_pathUnder_fileNames hm hext base
  refine ⟨m.isNormal_pathUnder base layout, fun hne => ?_, fun hdot => ?_, fun cwd => ?_, fun m' hm' => ⟨?_, ?_⟩⟩
  · rw [hcomponents, base.isNormal_normalize.components_of_ne_dot hne, base.steps_normalize]
  · have hsteps : base.steps = [] := by
      rw [← base.steps_normalize, hdot]
      rfl
    rw [hcomponents, hsteps]
    rfl
  · rw [Place.along_normalize, along_pathUnder hm hext]
  · exact ⟨fun h => h ▸ BEq.rfl, (m.isNormal_pathUnder base layout).eq_of_beq (m'.isNormal_pathUnder base layout)⟩
  · exact pathUnder_beq_iff hm hm' hext (hlayout.extension m') base

/-- Two dots in a row change nothing but whether the module counts as native. -/
theorem pathUnder_extends_base_climbing :
    let css : ModuleName := ⟨"Native..Css.".toList⟩
    let base := Path.ofString "lib/../../.."
    Layout.IsProper {} ∧ '/' ∉ css.text ∧ base.normalize ≠ ⟨[dot]⟩ ∧
      (css.pathUnder base {}).components =
        [.parent, .parent, .name (Utf8.encode "Native".toList), .name (Utf8.encode "Css.js".toList)] ∧
      css.pathUnder base {} = (⟨"Native.Css".toList⟩ : ModuleName).pathUnder base {} ∧
      css.pathUnder base {} ≠ (⟨".Native.Css".toList⟩ : ModuleName).pathUnder base {} := by
  intro css base
  have hlayout : Layout.IsProper {} :=
    ⟨⟨by decide, by unfold Undotted; decide, by decide⟩, ⟨by decide, by unfold Undotted; decide, by decide⟩⟩
  have hcss : '/' ∉ css.text := by decide
  have hbase : base.normalize ≠ ⟨[dot]⟩ := fun h => absurd (congrArg Path.bytes h) (by decide)
  obtain ⟨-, hcomponents, -, -, hunique⟩ := pathUnder_extends_base hlayout hcss base
  obtain ⟨hbeq, hsame⟩ := hunique ⟨"Native.Css".toList⟩ (by decide)
  obtain ⟨hbeq', hother⟩ := hunique ⟨".Native.Css".toList⟩ (by decide)
  refine ⟨hlayout, hcss, hbase, (hcomponents hbase).trans (by decide), hbeq.mpr (hsame.mpr (by decide)), fun h => ?_⟩
  exact absurd (hother.mp (hbeq'.mp h)) (by decide)

end ModuleName

end ElmImports
