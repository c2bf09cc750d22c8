import ElmImports.Proofs.Module.Header
import ElmImports.Proofs.Path.Last
import ElmImports.SourceRoots.Basic

/-!
# Absolute paths stay absolute

Following a path keeps the root that it starts from, and so do normalizing it, joining to it and going up from it.
The base directory of an absolute file and the roots that a manifest declares for an absolute directory are
therefore absolute.
-/

namespace ElmImports

namespace Path

theorem mem_of_mem_follow {kept : List Component} {c d : Component} (h : d ∈ follow kept c) : d ∈ kept ∨ d = c := by
  unfold follow at h
  split at h
  · exact .inl h
  · split at h
    · exact .inl (List.mem_cons_of_mem _ h)
    · exact .inl h
    · exact (List.mem_cons.mp h).symm
  · exact (List.mem_cons.mp h).symm

theorem root_mem_follow {kept : List Component} (c : Component) (h : .root ∈ kept) : .root ∈ follow kept c := by
  unfold follow
  split
  · exact h
  · split
    · exact (List.mem_cons.mp h).resolve_left nofun
    · exact h
    · exact List.mem_cons_of_mem _ h
  · exact List.mem_cons_of_mem _ h

theorem root_mem_foldl_follow : ∀ {cs kept : List Component},
    .root ∈ cs.foldl follow kept ↔ .root ∈ kept ∨ .root ∈ cs
  | [], kept => by simp
  | c :: cs, kept => by
    rw [List.foldl_cons, root_mem_foldl_follow, List.mem_cons, ← or_assoc]
    refine or_congr_left ⟨mem_of_mem_follow, ?_⟩
    rintro (h | rfl)
    · exact root_mem_follow c h
    · exact List.mem_cons_self

theorem isAbsolute_iff_root_mem_steps {p : Path} : p.isAbsolute = true ↔ .root ∈ p.steps := by
  rw [isAbsolute_iff]
  unfold steps
  rw [root_mem_foldl_follow]
  simp

theorem isAbsolute_normalize (p : Path) : p.normalize.isAbsolute = p.isAbsolute := by
  rw [Bool.eq_iff_iff, isAbsolute_iff_root_mem_steps, isAbsolute_iff_root_mem_steps, steps_normalize]

theorem isAbsolute_join {p : Path} (h : p.isAbsolute = true) (q : Path) : (p.join q).isAbsolute = true := by
  cases hq : q.isAbsolute with
  | true => rw [join_of_isAbsolute hq, hq]
  | false =>
    rw [isAbsolute_iff_root_mem_steps, steps_join hq, root_mem_foldl_follow]
    exact .inl (isAbsolute_iff_root_mem_steps.mp h)

/-! ## The parent of an absolute path -/

theorem isAbsolute_parent? {p dir : Path} (hp : p.isAbsolute = true) (h : p.parent? = some dir) :
    dir.isAbsolute = true := by
  unfold parent? at h
  split at h
  · cases h
    unfold openingBytes opening
    rw [if_pos hp]
    rfl
  · rename_i htrailing
    split at h
    · rename_i hdotted
      rcases bytes_of_isDotted hdotted with hb | ⟨rest, hb⟩ <;> unfold isAbsolute at hp <;> rw [hb] at hp <;> cases hp
    · cases h

theorem isAbsolute_of_mem_ancestorsWithin : ∀ (n : Nat) {p a : Path}, p.isAbsolute = true → a ∈ ancestorsWithin n p →
    a.isAbsolute = true
  | 0, _, _, hp, ha => by
    rw [List.mem_singleton.mp ha]
    exact hp
  | n + 1, p, a, hp, ha => by
    unfold ancestorsWithin at ha
    rcases List.mem_cons.mp ha with rfl | ha
    · exact hp
    · cases hparent : p.parent? with
      | none =>
        rw [hparent] at ha
        cases ha
      | some above =>
        rw [hparent] at ha
        exact isAbsolute_of_mem_ancestorsWithin n (isAbsolute_parent? hp hparent) ha

end Path

namespace Disk

theorem foldlM_enter_root (disk : Disk) : ∀ {pieces : List Bytes},
    (∀ piece ∈ pieces, Component.ofPiece? piece = none) → pieces.foldlM disk.enter [] = .ok []
  | [], _ => rfl
  | piece :: pieces, h => by
    obtain ⟨hpiece, hpieces⟩ := List.forall_mem_cons.mp h
    have henter : disk.enter [] piece = .ok [] := by
      unfold enter
      have hnothing : piece = [] ∨ piece = [Path.dot] := by
        unfold Component.ofPiece? at hpiece
        split at hpiece
        · exact .inl rfl
        · exact .inr rfl
        · cases hpiece
        · cases hpiece
      rw [if_pos hnothing]
      rfl
    rw [List.foldlM_cons, henter]
    exact foldlM_enter_root disk hpieces

theorem locate_of_named_eq_nil {disk : Disk} {p : Path} {place : Place} (hp : p.isAbsolute = true)
    (hnamed : Path.named p.bytes = []) (h : disk.locate p = .ok place) : place = [] := by
  unfold locate start at h
  rw [if_pos hp] at h
  split at h
  · cases h
  · split at h
    · cases h
    · split at h
      · cases h
      · have hroot := foldlM_enter_root disk (List.filterMap_eq_nil_iff.mp hnamed)
        exact (Except.ok.inj (hroot.symm.trans h)).symm

/-- An absolute path without a parent leads to the root, which is no file. -/
theorem exists_parent?_of_isFile {disk : Disk} {p : Path} (hp : p.isAbsolute = true) (h : disk.isFile p = true) :
    ∃ dir, p.parent? = some dir ∧ dir.isAbsolute = true := by
  cases hparent : p.parent? with
  | some dir => exact ⟨dir, rfl, Path.isAbsolute_parent? hp hparent⟩
  | none =>
    have htrailing : p.trailing = [] := by
      unfold Path.parent? at hparent
      split at hparent
      · cases hparent
      · assumption
    have hnamed : Path.named p.bytes = [] := by
      have hbody := p.named_body
      rw [htrailing] at hbody
      have hcomponents := p.opening_body.2.1
      rw [hbody, Path.components_eq] at hcomponents
      exact List.append_cancel_left hcomponents
    obtain ⟨place, hplace, hregular⟩ := isFile_iff.mp h
    rw [locate_of_named_eq_nil hp hnamed hplace] at hregular
    cases hregular

end Disk

/-! ## Absolute directories -/

theorem isAbsolute_directory {disk : Disk} {file : Path} (hfile : file.isAbsolute = true)
    (h : disk.isFile file = true) : file.directory.isAbsolute = true := by
  obtain ⟨dir, hparent, hdir⟩ := Disk.exists_parent?_of_isFile hfile h
  unfold Path.directory
  rw [hparent]
  dsimp only
  split
  · rename_i hempty
    obtain ⟨bytes⟩ := dir
    obtain rfl : bytes = [] := by simpa [Path.isEmpty] using hempty
    cases hdir
  · exact hdir

theorem isAbsolute_foldl_join {α : Type} (q : Path) : ∀ (as : List α) {dir : Path}, dir.isAbsolute = true →
    (as.foldl (fun dir _ => dir.join q) dir).isAbsolute = true
  | [], _, h => h
  | _ :: as, _, h => isAbsolute_foldl_join q as (Path.isAbsolute_join h q)

theorem isAbsolute_baseDirectory {disk : Disk} {file base : Path} (hfile : file.isAbsolute = true)
    (h : disk.baseDirectory file = .ok base) : base.isAbsolute = true := by
  obtain ⟨⟨content, hread⟩, up, rfl⟩ := Disk.of_baseDirectory h
  rw [Path.isAbsolute_normalize]
  exact isAbsolute_foldl_join _ _ (isAbsolute_directory hfile (Disk.isFile_of_read hread))

/-- The roots that a manifest declares for an absolute directory are absolute. -/
theorem SourceRoots.isAbsolute_of_mem_ofManifest {disk : Disk} {name : Text} {base root : Path}
    (hbase : base.isAbsolute = true) (h : root ∈ SourceRoots.ofManifest name disk base) : root.isAbsolute = true := by
  unfold ofManifest at h
  split at h
  · rename_i manifest hmanifest
    unfold manifest? Disk.nearest? at hmanifest
    obtain ⟨a, ha, hjoin⟩ := List.mem_map.mp (List.mem_of_find?_eq_some hmanifest)
    have hmanifestAbsolute : manifest.isAbsolute = true := by
      rw [← hjoin]
      exact Path.isAbsolute_join (Path.isAbsolute_of_mem_ancestorsWithin _ hbase ha) _
    obtain ⟨home, hparent, hhome⟩ :=
      Disk.exists_parent?_of_isFile hmanifestAbsolute (List.find?_some hmanifest)
    unfold declaredBy at h
    split at h
    · cases h
    · rw [hparent] at h
      obtain ⟨dir, -, rfl⟩ := List.mem_map.mp h
      rw [Path.isAbsolute_normalize]
      exact Path.isAbsolute_join hhome _
  · cases h

end ElmImports
