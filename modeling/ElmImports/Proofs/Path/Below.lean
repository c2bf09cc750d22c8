import ElmImports.Proofs.Path.Last
import Mathlib.Data.List.Basic

/-!
# Below a directory

What lies below a directory is left when the directory's components are taken from the front. Of a path that is made
of names only, the extension goes from the last one and nothing else changes.
-/

namespace ElmImports

namespace Path
variable {base p : Path}

theorem below?_of_components {rest : List Component} (h : p.components = base.components ++ rest) :
    below? base p = some (ofComponents rest) := by
  unfold below?
  rw [List.isPrefixOf?_eq_some_iff_append_eq.mpr h.symm]
  rfl

theorem below?_eq_none {c : Component} (hbase : c ∈ base.components) (hp : c ∉ p.components) :
    below? base p = none := by
  unfold below?
  rw [Option.map_eq_none_iff, Option.eq_none_iff_forall_ne_some]
  intro rest hrest
  rw [← List.isPrefixOf?_eq_some_iff_append_eq.mp hrest] at hp
  exact hp (List.mem_append_left _ hbase)

theorem IsNormal.components_of_ne_dot (h : p.IsNormal) (hne : p ≠ ⟨[dot]⟩) : p.components = p.steps.reverse := by
  have hcomponents := components_normalize p
  rw [h] at hcomponents
  split at hcomponents
  · have hdot : IsNormal ⟨[dot]⟩ := rfl
    exact absurd (h.eq_of_components_eq hdot hcomponents) hne
  · exact hcomponents

/-! ## Without the extension -/

theorem opening_eq_nil_of_isStep (h : ∀ c ∈ p.components, c.IsStep) : p.opening = [] := by
  rw [components_eq] at h
  unfold opening at h ⊢
  split at h
  · exact absurd (h .root (by simp)) Component.not_isStep_root
  · rename_i habs
    rw [if_neg habs]
    split at h
    · exact absurd (h .current (by simp)) Component.not_isStep_current
    · rename_i hdot
      rw [if_neg hdot]

theorem ofComponents_names (names : List Bytes) : ofComponents (names.map .name) = ⟨[slash].intercalate names⟩ := by
  have hspelled : (names.map Component.name).map Component.spelling = names := by
    rw [List.map_map]
    exact List.map_id names
  unfold ofComponents
  split
  · rename_i cs hcs
    cases names <;> cases hcs
  · rw [hspelled]

section
variable {dirs : List Bytes} {x : Bytes} (hdirs : ∀ d ∈ dirs, (Component.name d).IsStep)
  (hx : (Component.name x).IsStep)
include hdirs hx

theorem isStep_of_mem_names : ∀ c ∈ (dirs ++ [x]).map Component.name, c.IsStep := by
  intro c hc
  obtain ⟨d, hd, rfl⟩ := List.mem_map.mp hc
  rcases List.mem_append.mp hd with hd | hd
  · exact hdirs d hd
  · rw [List.mem_singleton.mp hd]
    exact hx

theorem components_names : components ⟨[slash].intercalate (dirs ++ [x])⟩ = (dirs ++ [x]).map .name := by
  have hspelled : ((dirs ++ [x]).map Component.name).map Component.spelling = dirs ++ [x] := by
    rw [List.map_map]
    exact List.map_id _
  have hjoined := components_joined (isStep_of_mem_names hdirs hx) (by simp)
  rwa [hspelled] at hjoined

theorem trailing_names : trailing ⟨[slash].intercalate (dirs ++ [x])⟩ = x :: dirs.reverse := by
  have hcomponents := components_names hdirs hx
  have hsteps := isStep_of_mem_names hdirs hx
  have hopening : openingBytes ⟨[slash].intercalate (dirs ++ [x])⟩ = [] := by
    unfold openingBytes
    rw [opening_eq_nil_of_isStep (hcomponents ▸ hsteps)]
    rfl
  have hslash : ∀ piece ∈ dirs ++ [x], slash ∉ piece := fun piece hp => (hsteps _ (List.mem_map_of_mem hp)).2
  unfold trailing
  rw [hopening, List.length_nil, List.drop_zero, List.splitOn_intercalate slash hslash (by simp), List.reverse_append,
    List.reverse_singleton, List.singleton_append, List.dropWhile_cons_of_neg]
  rw [show Component.ofPiece? x = some (.name x) from hx.1]
  exact Bool.false_ne_true

end

theorem components_withoutExtension {dirs : List Bytes} {name ext : Bytes}
    (hdirs : ∀ d ∈ dirs, (Component.name d).IsStep) (hname : (Component.name name).IsStep) (hdot : dot ∉ ext)
    (hslash : slash ∉ ext) :
    (ofComponents ((dirs ++ [name ++ dot :: ext]).map .name)).withoutExtension.components =
      (dirs ++ [name]).map .name := by
  have hne : name ≠ [] := hname.ne_nil
  have hfile := isStep_append_extension hname hslash
  have hcomponents := components_names hdirs hfile
  have htrailing := trailing_names hdirs hfile
  have hfileName : fileName? ⟨[slash].intercalate (dirs ++ [name ++ dot :: ext])⟩ = some (name ++ dot :: ext) := by
    rw [List.map_append] at hcomponents
    exact fileName?_of_components hcomponents
  have hopening : openingBytes ⟨[slash].intercalate (dirs ++ [name ++ dot :: ext])⟩ = [] := by
    unfold openingBytes
    rw [opening_eq_nil_of_isStep (hcomponents ▸ isStep_of_mem_names hdirs hfile)]
    rfl
  rw [ofComponents_names]
  unfold withoutExtension
  rw [hfileName, htrailing]
  dsimp only
  rw [hopening, cutAtLastDot_append hne hdot, List.reverse_reverse, List.nil_append]
  exact components_names hdirs hname

end Path

end ElmImports
