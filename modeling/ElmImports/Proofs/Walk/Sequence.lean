import ElmImports.Proofs.Walk.Invariant

/-!
# Visits one after another

A resolution may be handed from visit to visit, whatever their files and base directories. After each of
them the dependencies are a list without repetition, apart from the unreadable files, and exactly what the
edges lead to besides those; every edge starts at a file that was scanned, and no source is left to visit.
-/

namespace ElmImports

open Project

structure Resolution.Consistent (P : Project) (r : Resolution) : Prop where
  nodup : r.known.toList.Nodup
  members : ∀ p, p ∈ r.known.members.toList ↔ p ∈ r.known.toList
  known_normal : ∀ p ∈ r.known.toList, p.normalize = p
  visited_normal : ∀ p ∈ r.visited.toList, p.normalize = p
  unreadable_normal : ∀ p ∈ r.unreadable.toList, p.normalize = p
  edges_normal : ∀ e ∈ r.edges.toList, e.1.normalize = e.1 ∧ e.2.normalize = e.2
  disjoint : ∀ p ∈ r.known.toList, p ∉ r.unreadable.toList
  unreadable_visited : ∀ p ∈ r.unreadable.toList, p ∈ r.visited.toList
  unreadable_source : ∀ p ∈ r.unreadable.toList,
    P.layout.isSourceFile p = true ∧ P.disk.importLines? P.chunk p = none
  importer : ∀ e ∈ r.edges.toList, e.1 ∈ r.visited.toList ∧ e.1 ∉ r.unreadable.toList
  imported : ∀ e ∈ r.edges.toList, e.2 ∈ r.known.toList ∨ e.2 ∈ r.unreadable.toList
  known_imported : ∀ p ∈ r.known.toList, ∃ e ∈ r.edges.toList, e.2 = p
  sources_visited : ∀ p ∈ r.known.toList, P.layout.isSourceFile p = true → p ∈ r.visited.toList

namespace Project

/-! ## Edges -/

structure Traced (P : Project) (r : Resolution) : Prop where
  normal : ∀ e ∈ r.edges.toList, e.1.IsNormal ∧ e.2.IsNormal
  importer : ∀ e ∈ r.edges.toList, e.1 ∈ r.visited.toList
  scanned : ∀ e ∈ r.edges.toList, P.disk.importLines? P.chunk e.1 ≠ none
  imported : ∀ e ∈ r.edges.toList, e.2 ∈ r.known.toList ∨ e.2 ∈ r.unreadable.toList
  named : ∀ p ∈ r.known.toList, ∃ e ∈ r.edges.toList, e.2 = p

section
variable {P : Project} {base file : Path} {r r' : Resolution} {lines : List Text} {new : List Path}

theorem Traced.mark (h : Traced P r) : Traced P (r.mark file) :=
  { h with importer := fun e he => toList_subset_insert _ _ (h.importer e he) }

theorem Traced.setAside (h : Traced P r) : Traced P (r.setAside file) :=
  { h with imported := fun e he => (h.imported e he).imp_right fun hu => toList_subset_insert _ _ hu }

theorem Traced.enter (h : Traced P r) (hr : WellFormed P r) (hf : file.IsNormal)
    (hv : file ∈ r.visited.toList) (hl : P.disk.importLines? P.chunk file = some lines)
    (he : Entered P base file r lines r' new) :
    Traced P r' := by
  -- an edge of `r'` was there before, or goes from `file` to a target that was kept
  have hedge : ∀ e ∈ r'.edges.toList,
      e ∈ r.edges.toList ∨ e.1 = file ∧ e.2 ∈ P.keptTargets base r lines := by
    intro e hm
    rw [he.edges] at hm
    rcases List.mem_append.mp hm with hm | hm
    · exact .inl hm
    · obtain ⟨t, ht, rfl⟩ := List.mem_map.mp hm
      exact .inr ⟨rfl, ht⟩
  refine ⟨?_, ?_, ?_, ?_, ?_⟩
  · intro e hm
    rcases hedge e hm with hm | ⟨h₁, h₂⟩
    · exact h.normal e hm
    · exact ⟨h₁ ▸ hf, isNormal_of_mem_targetsIn (hr.mem_keptTargets.mp h₂).1⟩
  · intro e hm
    rw [he.visited]
    rcases hedge e hm with hm | ⟨h₁, -⟩
    · exact h.importer e hm
    · exact h₁ ▸ hv
  · intro e hm
    rcases hedge e hm with hm | ⟨h₁, -⟩
    · exact h.scanned e hm
    · rw [h₁, hl]; exact nofun
  · intro e hm
    rw [he.unreadable]
    rcases hedge e hm with hm | ⟨-, h₂⟩
    · rcases h.imported e hm with hk | hu
      · rw [he.known]; exact .inl (List.mem_append_left _ hk)
      · exact .inr hu
    · exact .inl (he.covers hr.known _ h₂)
  · intro p hp
    rw [he.known] at hp
    rw [he.edges]
    rcases List.mem_append.mp hp with hp | hp
    · obtain ⟨e, hm, rfl⟩ := h.named p hp
      exact ⟨e, List.mem_append_left _ hm, rfl⟩
    · exact ⟨(file, p), List.mem_append_right _ (List.mem_map_of_mem (he.new_kept p hp)), rfl⟩

theorem Traced.dropUnreadable (h : Traced P r) (hr : WellFormed P r) : Traced P r.dropUnreadable := by
  refine { h with imported := ?_, named := ?_ }
  · intro e he
    by_cases hu : e.2 ∈ r.unreadable.toList
    · exact .inr hu
    · exact .inl (hr.mem_dropUnreadable.mpr ⟨(h.imported e he).resolve_right hu, hu⟩)
  · exact fun p hp => h.named p (hr.mem_dropUnreadable.mp hp).1

theorem preserved_traced (P : Project) (base : Path) : Preserved P base (fun _ _ => True) (Traced P) where
  may _ _ _ _ := trivial
  failed _ _ _ _ _ h := h.mark.setAside
  entered hr hf _ hl he _ h :=
    ⟨h.mark.enter (hr.mark hf) hf ((hr.mem_mark hf).mpr (.inl rfl)) hl he, fun _ _ => trivial⟩
  dropped hr h := h.dropUnreadable hr

/-! ## Between visits -/

structure Settled (P : Project) (r : Resolution) : Prop where
  wellFormed : WellFormed P r
  traced : Traced P r
  apart : Apart r
  sources : ∀ p ∈ r.known.toList, P.layout.isSourceFile p = true → p ∈ r.visited.toList

theorem settled_empty (P : Project) : Settled P {} where
  wellFormed := wellFormed_empty P
  traced := ⟨nofun, nofun, nofun, nofun, nofun⟩
  apart := nofun
  sources := nofun

theorem Settled.visit (h : Settled P r) (base file : Path) :
    Settled P (P.visit base file r).resolution := by
  have hv := P.visits_visit base file r
  have hf := file.isNormal_normalize
  refine ⟨hv.wellFormed h.wellFormed hf, ?_, hv.apart h.wellFormed hf h.apart, ?_⟩
  · exact (preserved_traced P base).visits hv h.wellFormed hf trivial h.traced fun _ _ => h.traced.mark
  · intro p hp hs
    rcases hv.new_visited h.wellFormed hf hp hs with hp | hp
    · exact hv.grows.visited (h.sources p hp hs)
    · exact hp

theorem Settled.consistent (h : Settled P r) : r.Consistent P where
  nodup := h.wellFormed.known.nodup
  members := h.wellFormed.known.members
  known_normal := h.wellFormed.known.normal
  visited_normal := h.wellFormed.visited
  unreadable_normal := h.wellFormed.unreadable
  edges_normal := h.traced.normal
  disjoint := h.apart
  unreadable_visited _ hp := h.wellFormed.tried hp
  unreadable_source p hp := ⟨h.wellFormed.source p hp, h.wellFormed.failed p hp⟩
  importer e he := ⟨h.traced.importer e he, fun hu => h.traced.scanned e he (h.wellFormed.failed e.1 hu)⟩
  imported := h.traced.imported
  known_imported := h.traced.named
  sources_visited := h.sources

end

def afterVisits (P : Project) (calls : List (Path × Path)) (r : Resolution) : Resolution :=
  calls.foldl (fun r (base, file) => (P.visit base file r).resolution) r

theorem Settled.afterVisits {P : Project} : ∀ (calls : List (Path × Path)) {r : Resolution}, Settled P r →
    Settled P (P.afterVisits calls r)
  | [], _, h => h
  | (base, file) :: calls, _, h => Settled.afterVisits calls (h.visit base file)

theorem consistent_afterVisits (P : Project) (calls : List (Path × Path)) :
    (P.afterVisits calls {}).Consistent P :=
  (Settled.afterVisits calls (settled_empty P)).consistent

end Project

end ElmImports
