import ElmImports.Module.Name
import ElmImports.Proofs.Path.Last
import ElmImports.Proofs.Text.Utf8

/-!
# Where a module's file lies

The segments of a name hold no dot, so that one without a slash is one name of the path, or nothing if it is
empty. The steps to the file are those to the directory, then the segments, the last one with its extension.
-/

namespace ElmImports

open ElmImports.Path

/-! ## ASCII in paths -/

theorem slash_mem_encode {t : Text} : slash ∈ Utf8.encode t ↔ '/' ∈ t :=
  Utf8.mem_encode (by decide : '/'.toNat < 0x80)

theorem dot_mem_encode {t : Text} : dot ∈ Utf8.encode t ↔ '.' ∈ t :=
  Utf8.mem_encode (by decide : '.'.toNat < 0x80)

theorem encode_ne_nil {t : Text} (h : t ≠ []) : Utf8.encode t ≠ [] := by
  intro he
  exact h (Utf8.encode_injective he)

namespace ModuleName
variable {m : ModuleName} {layout : Layout}

/-! ## Segments -/

theorem dot_not_mem_segment {s : Text} (h : s ∈ m.segments) : '.' ∉ s :=
  Pieces.sep_not_mem h

theorem segments_ne_nil (m : ModuleName) : m.segments ≠ [] :=
  List.splitOn_ne_nil _ _

theorem exists_segments (m : ModuleName) : ∃ dirs last, m.segments = dirs ++ [last] := by
  obtain ⟨dirs, last, hconcat⟩ := (List.eq_nil_or_concat m.segments).resolve_left m.segments_ne_nil
  rw [List.concat_eq_append] at hconcat
  exact ⟨dirs, last, hconcat⟩

def names (m : ModuleName) : List Bytes :=
  (m.segments.filter (! ·.isEmpty)).map Utf8.encode

theorem names_eq (h : ∀ s ∈ m.segments, s ≠ []) : m.names = m.segments.map Utf8.encode := by
  unfold names
  rw [List.filter_eq_self.mpr]
  intro s hs
  simpa using h s hs

theorem components_ofText {s : Text} (hdot : '.' ∉ s) (hslash : '/' ∉ s) :
    opening (.ofText s) = [] ∧
      components (.ofText s) = if s.isEmpty then [] else [.name (Utf8.encode s)] := by
  by_cases hs : s = []
  · subst hs
    exact ⟨rfl, rfl⟩
  · have hstep := isStep_of_dot_not_mem (encode_ne_nil hs) (mt dot_mem_encode.mp hdot) (mt slash_mem_encode.mp hslash)
    obtain ⟨hopening, hcomponents⟩ := components_of_isStep hstep
    rw [if_neg (by simpa using hs)]
    exact ⟨hopening, hcomponents⟩

theorem components_foldl_join {segments : List Text} (h : ∀ s ∈ segments, '.' ∉ s ∧ '/' ∉ s) (p : Path) :
    (segments.foldl (fun p s => p.join (.ofText s)) p).components =
      p.components ++ ((segments.filter (! ·.isEmpty)).map Utf8.encode).map .name := by
  induction segments generalizing p with
  | nil => simp
  | cons s segments ih =>
    obtain ⟨hopening, hcomponents⟩ := components_ofText (h s (by simp)).1 (h s (by simp)).2
    rw [List.foldl_cons, ih (fun s hs => h s (by simp [hs])), components_join hopening, hcomponents]
    by_cases hs : s.isEmpty = true <;> simp [hs]

theorem components_stem (hslash : ∀ s ∈ m.segments, '/' ∉ s) : m.stem.components = m.names.map .name :=
  components_foldl_join (fun s hs => ⟨dot_not_mem_segment hs, hslash s hs⟩) ⟨[]⟩

/-! ## The file -/

theorem extension_of_isNative (h : m.isNative layout = true) : m.extension layout = layout.nativeExtension :=
  if_pos h

theorem extension_of_not_isNative (h : m.isNative layout = false) : m.extension layout = layout.sourceExtension :=
  if_neg (by simp [h])

section
variable {dirs : List Bytes} {last : Bytes}

theorem isStep_last (hslash : ∀ s ∈ m.segments, '/' ∉ s) (hnames : m.names = dirs ++ [last]) :
    (Component.name last).IsStep := by
  have hlast : last ∈ m.names := by simp [hnames]
  obtain ⟨s, hs, rfl⟩ := List.mem_map.mp hlast
  obtain ⟨hs, hne⟩ := List.mem_filter.mp hs
  exact isStep_of_dot_not_mem (encode_ne_nil (by simpa using hne)) (mt dot_mem_encode.mp (dot_not_mem_segment hs))
    (mt slash_mem_encode.mp (hslash s hs))

theorem components_relativePath (hslash : ∀ s ∈ m.segments, '/' ∉ s) (hnames : m.names = dirs ++ [last])
    (hext : '/' ∉ m.extension layout) : (m.relativePath layout).components =
      dirs.map .name ++ [.name (last ++ dot :: Utf8.encode (m.extension layout))] := by
  have hstem := components_stem hslash
  rw [hnames, List.map_append, List.map_singleton] at hstem
  have hname := fileName?_of_components hstem
  have hstep := isStep_append_extension (isStep_last hslash hnames) (mt slash_mem_encode.mp hext)
  unfold relativePath
  rw [hname, Option.getD_some, components_withFileName hstep, hname, hstem]
  simp

theorem steps_pathUnder (hslash : ∀ s ∈ m.segments, '/' ∉ s) (hnames : m.names = dirs ++ [last])
    (hext : '/' ∉ m.extension layout) (base : Path) : (base.join (m.relativePath layout)).steps =
      .name (last ++ dot :: Utf8.encode (m.extension layout)) :: ((dirs.map .name).reverse ++ base.steps) := by
  have hcomponents := components_relativePath hslash hnames hext
  have hrelative : (m.relativePath layout).isAbsolute = false := by
    rw [Bool.eq_false_iff, ne_eq, isAbsolute_iff, hcomponents]
    simp
  rw [steps_join hrelative, hcomponents, List.foldl_append, foldl_follow_names]
  rfl

end

end ModuleName

end ElmImports
