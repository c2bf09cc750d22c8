import ElmImports.Proofs.Config.Accepted
import ElmImports.Proofs.Module.Name
import ElmImports.Proofs.Walk.Imports

/-!
# Source files and native modules told apart

Whether a module is native is read off its name, whether a file is a source file off its path. The extension
read back from a module's file is what follows the last dot of the one it was given, so that the two tests
agree where this tells the two extensions apart, and not in general.
-/

namespace ElmImports

open ElmImports.Path

/-! ## The last dot -/

def afterLastDot (t : Text) : Text :=
  (t.reverse.takeWhile (· != '.')).reverse

section
variable {t : Text}

theorem dot_not_mem_afterLastDot (t : Text) : '.' ∉ afterLastDot t := by
  intro h
  have := List.all_eq_true.mp List.all_takeWhile _ (List.mem_reverse.mp h)
  simp at this

theorem afterLastDot_of_dot_not_mem (h : '.' ∉ t) : afterLastDot t = t := by
  unfold afterLastDot
  rw [List.takeWhile_eq_self_iff.mpr, List.reverse_reverse]
  intro c hc
  rw [bne_iff_ne]
  rintro rfl
  exact h (List.mem_reverse.mp hc)

theorem eq_append_afterLastDot (h : '.' ∈ t) : ∃ before, t = before ++ '.' :: afterLastDot t := by
  have hsplit := List.takeWhile_append_dropWhile (p := (· != '.')) (l := t.reverse)
  cases hdrop : t.reverse.dropWhile (· != '.') with
  | nil =>
    rw [hdrop, List.append_nil] at hsplit
    rw [← List.mem_reverse, ← hsplit] at h
    exact absurd (List.mem_reverse.mpr h) (dot_not_mem_afterLastDot t)
  | cons c before =>
    have hc := List.head?_dropWhile_not (· != '.') t.reverse
    rw [hdrop] at hc
    obtain rfl : c = '.' := by simpa using hc
    rw [hdrop] at hsplit
    have ht := congrArg List.reverse hsplit
    rw [List.reverse_reverse, List.reverse_append, List.reverse_cons, List.append_assoc] at ht
    exact ⟨before.reverse, ht.symm⟩

end

/-- The extension of a file whose name was given the extension `ext`. -/
theorem cutAtLastDot_extension (name : Bytes) (ext : Text) :
    (cutAtLastDot (name ++ dot :: Utf8.encode ext)).2 =
      if name = [] ∧ '.' ∉ ext then none else some (Utf8.encode (afterLastDot ext)) := by
  by_cases hdot : '.' ∈ ext
  · obtain ⟨before, hext⟩ := eq_append_afterLastDot hdot
    have hlast : dot ∉ Utf8.encode (afterLastDot ext) := mt dot_mem_encode.mp (dot_not_mem_afterLastDot ext)
    have hencode : Utf8.encode ext = Utf8.encode before ++ dot :: Utf8.encode (afterLastDot ext) :=
      (congrArg Utf8.encode hext).trans (Utf8.encode_append before _)
    have hname : name ++ dot :: Utf8.encode ext =
        (name ++ dot :: Utf8.encode before) ++ dot :: Utf8.encode (afterLastDot ext) := by
      rw [hencode, List.append_assoc]
      rfl
    rw [hname, cutAtLastDot_append (by simp) hlast, if_neg (by simp [hdot])]
  · have hext : dot ∉ Utf8.encode ext := mt dot_mem_encode.mp hdot
    by_cases hname : name = []
    · subst hname
      rw [List.nil_append, cutAtLastDot_dot_cons hext, if_pos ⟨rfl, hdot⟩]
    · rw [cutAtLastDot_append hname hext, if_neg (by simp [hname]), afterLastDot_of_dot_not_mem hdot]

/-! ## Extensions of module files -/

namespace ModuleName
variable {m : ModuleName} {layout : Layout}

def fileName (m : ModuleName) (layout : Layout) : Bytes :=
  m.stem.fileName?.getD [] ++ dot :: Utf8.encode (m.extension layout)

theorem isStep_dot_cons {ext : Text} (hne : ext ≠ []) (hdot : Undotted ext) (hslash : '/' ∉ ext) :
    (Component.name (dot :: Utf8.encode ext)).IsStep := by
  have hne' := encode_ne_nil hne
  refine isStep_name (by simp) (by simpa using hne') ?_ ?_
  · intro h
    have hext : Utf8.encode ext = Utf8.encode ['.'] := List.tail_eq_of_cons_eq h
    rw [Utf8.encode_injective hext] at hdot
    exact hdot rfl
  · have hdiff : slash ≠ dot := by decide
    have := mt slash_mem_encode.mp hslash
    simp [hdiff, this]

theorem isStep_fileName (hne : m.extension layout ≠ []) (hdot : Undotted (m.extension layout))
    (hslash : '/' ∉ m.extension layout) : (Component.name (m.fileName layout)).IsStep := by
  unfold fileName
  cases hname : m.stem.fileName? with
  | none => exact isStep_dot_cons hne hdot hslash
  | some x => exact isStep_append_extension (isStep_of_fileName? hname) (mt slash_mem_encode.mp hslash)

/-- A module's file has its extension whatever the directory is, be the segments of the name what they may. -/
theorem extension?_pathUnder (hne : m.extension layout ≠ []) (hdot : Undotted (m.extension layout))
    (hslash : '/' ∉ m.extension layout) (base : Path) : (m.pathUnder base layout).extension? =
      if m.stem.fileName? = none ∧ '.' ∉ m.extension layout then none
      else some (Utf8.encode (afterLastDot (m.extension layout))) := by
  have hcomponents := components_withFileName (isStep_fileName hne hdot hslash) m.stem
  obtain ⟨below, hsteps⟩ := steps_join_concat hcomponents base
  have hname : (m.pathUnder base layout).fileName? = some (m.fileName layout) := fileName?_normalize hsteps
  have hnil : m.stem.fileName?.getD [] = [] ↔ m.stem.fileName? = none := by
    cases h : m.stem.fileName? with
    | none => simp
    | some x =>
      have hx : x ≠ [] := (isStep_of_fileName? h).ne_nil
      simp [hx]
  unfold extension?
  rw [hname, Option.bind_some]
  unfold fileName
  rw [cutAtLastDot_extension]
  simp only [hnil]

theorem isSourceFile_pathUnder (hne : m.extension layout ≠ []) (hdot : Undotted (m.extension layout))
    (hslash : '/' ∉ m.extension layout) (base : Path) :
    layout.isSourceFile (m.pathUnder base layout) = true ↔
      afterLastDot (m.extension layout) = layout.sourceExtension ∧
        (m.stem.fileName? = none → '.' ∈ m.extension layout) := by
  unfold Layout.isSourceFile
  rw [beq_iff_eq, extension?_pathUnder hne hdot hslash]
  split
  · rename_i h
    exact iff_of_false (by simp) fun hkind => h.2 (hkind.2 h.1)
  · rename_i h
    rw [Option.some_inj, Utf8.encode_injective.eq_iff]
    refine ⟨fun he => ⟨he, fun hnone => ?_⟩, And.left⟩
    by_contra hdot
    exact h ⟨hnone, hdot⟩

end ModuleName

/-! ## The two tests -/

/-- The extension of source modules is read back whole, and that of native ones is not read back as it. -/
structure Layout.TellsApart (layout : Layout) (m : ModuleName) : Prop where
  source : m.isNative layout = false →
    '.' ∉ layout.sourceExtension ∧ '/' ∉ layout.sourceExtension ∧ m.stem.fileName? ≠ none
  native : m.isNative layout = true →
    '/' ∉ layout.nativeExtension ∧ afterLastDot layout.nativeExtension ≠ layout.sourceExtension

theorem Layout.TellsApart.isSourceFile_iff {layout : Layout} {m : ModuleName} (h : layout.TellsApart m)
    (hne : m.extension layout ≠ []) (hdot : Undotted (m.extension layout)) (base : Path) :
    layout.isSourceFile (m.pathUnder base layout) = true ↔ m.isNative layout = false := by
  cases hkind : m.isNative layout with
  | false =>
    obtain ⟨hsource, hslash, hname⟩ := h.source hkind
    have hext := ModuleName.extension_of_not_isNative hkind
    rw [m.isSourceFile_pathUnder hne hdot (hext ▸ hslash), hext, afterLastDot_of_dot_not_mem hsource]
    exact iff_of_true ⟨rfl, fun hnone => absurd hnone hname⟩ rfl
  | true =>
    obtain ⟨hslash, hlast⟩ := h.native hkind
    have hext := ModuleName.extension_of_isNative hkind
    rw [m.isSourceFile_pathUnder hne hdot (hext ▸ hslash), hext]
    exact iff_of_false (fun hsource => hlast hsource.1) (by simp)

namespace Config

theorem extension_of_resolveFrom {disk : Disk} {env : Environment} {dir : Path} {user? : Option Path} {cli : Layer}
    {c : Config} (hc : resolveFrom disk env dir user? cli = .ok c) (m : ModuleName) :
    m.extension c.layout ≠ [] ∧ Undotted (m.extension c.layout) := by
  obtain ⟨hsource, hnative⟩ := extensions_ne_nil_of_resolveFrom hc
  have hdots := undottedExtensions_of_resolveFrom hc
  unfold ModuleName.extension
  split
  · exact ⟨hnative, hdots.native⟩
  · exact ⟨hsource, hdots.source⟩

/-- Under an accepted configuration that tells a module's extensions apart, the module's file is a source file
below every directory just if the module is not native; so is the file that a walk takes its import to. -/
theorem isSourceFile_iff_not_isNative {disk : Disk} {env : Environment} {dir : Path} {user? : Option Path}
    {cli : Layer} {c : Config} (hc : resolveFrom disk env dir user? cli = .ok c) {m : ModuleName}
    (h : c.layout.TellsApart m) (base : Path) :
    (c.layout.isSourceFile (m.pathUnder base c.layout) = true ↔ m.isNative c.layout = false) ∧
      ∀ (walked : Disk) (r : Resolution),
        c.layout.isSourceFile ((c.project walked).target base m r).1 = true ↔ m.isNative c.layout = false := by
  obtain ⟨hne, hdot⟩ := extension_of_resolveFrom hc m
  have hunder := h.isSourceFile_iff hne hdot
  refine ⟨hunder base, fun walked r => ?_⟩
  obtain ⟨roots, asked, htarget, -⟩ := (c.project walked).target_eq base m r
  obtain ⟨dir, -, hdir⟩ := (c.project walked).targetIn_eq_pathUnder base (r.rootsOf (c.project walked) base) m
  rw [htarget, hdir]
  exact hunder dir

def nativeBesideSource : Layer where
  sourceExtension? := some ".elm".toList
  nativeExtension? := some "elm.js".toList

theorem isSourceFile_of_nativeBesideSource :
    ∃ c, resolveFrom .empty [] (.ofString "src") none nativeBesideSource = .ok c ∧
      c.layout.TellsApart ⟨"Native.Css".toList⟩ ∧
      ((c.layout.isSourceFile (ModuleName.pathUnder ⟨"Native.Css".toList⟩ (.ofString "../lib") c.layout) = true ↔
          ModuleName.isNative ⟨"Native.Css".toList⟩ c.layout = false) ∧
        ∀ (walked : Disk) (r : Resolution),
          c.layout.isSourceFile
              ((c.project walked).target (.ofString "../lib") ⟨"Native.Css".toList⟩ r).1 = true ↔
            ModuleName.isNative ⟨"Native.Css".toList⟩ c.layout = false) := by
  obtain ⟨c, hc, hlayout⟩ : ∃ c, resolveFrom .empty [] (.ofString "src") none nativeBesideSource = .ok c ∧
      c.layout = { nativeExtension := "elm.js".toList } := ⟨_, rfl, rfl⟩
  have h : c.layout.TellsApart ⟨"Native.Css".toList⟩ := by
    rw [hlayout]
    exact ⟨fun hkind => absurd hkind (by decide), fun _ => by decide⟩
  exact ⟨c, hc, h, isSourceFile_iff_not_isNative hc h _⟩

def Confused (cli : Layer) (line : String) : Prop :=
  ∃ c m, resolveFrom .empty [] (.ofString "src") none cli = .ok c ∧ ModuleName.ofImportLine? line.toList = some m ∧
    ¬ (c.layout.isSourceFile (m.pathUnder (.ofString "src") c.layout) = true ↔ m.isNative c.layout = false)

/-- No condition of `Layout.TellsApart` can be left out. -/
theorem confused_extensions :
    Confused {} "import ." ∧
      Confused { sourceExtension? := some "elm.txt".toList } "import Css" ∧
      Confused { sourceExtension? := some "elm/".toList } "import Css" ∧
      Confused { nativeExtension? := some "elm".toList } "import Native.Css" ∧
      Confused { nativeExtension? := some "js.elm".toList } "import Native.Css" ∧
      Confused { nativeExtension? := some "elm/".toList } "import Native.Css" := by
  refine ⟨⟨_, _, rfl, rfl, ?_⟩, ⟨_, _, rfl, rfl, ?_⟩, ⟨_, _, rfl, rfl, ?_⟩, ⟨_, _, rfl, rfl, ?_⟩,
    ⟨_, _, rfl, rfl, ?_⟩, ⟨_, _, rfl, rfl, ?_⟩⟩ <;> decide

end Config

end ElmImports
