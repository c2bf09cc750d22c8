import ElmImports.Proofs.Disk.Change
import ElmImports.Proofs.Disk.Lookup
import ElmImports.Proofs.Module.Name
import ElmImports.Proofs.Path.Absolute

/-!
# The nearest manifest

Going up from a directory passes the places above it, one after the other, down to the one that its path starts from. So
the manifest that is found lies in the nearest of them that holds one. A path that begins with parent steps is an
exception when none of them does: it has its parent steps taken back then, which leads down again, towards the working
directory.
-/

namespace ElmImports

namespace Disk

/-- Of the places at and above `here`, `place` is the nearest with a file of that name. -/
structure IsNearest (disk : Disk) (name : Bytes) (here place : Place) : Prop where
  above : place <:+ here
  holds : disk.holds name place = true
  not_nearer : ∀ nearer, place <:+ nearer → nearer ≠ place → nearer <:+ here → disk.holds name nearer = false

theorem isNearest_of_find? {disk : Disk} {name : Bytes} {origin place : Place} {names : List Bytes}
    (h : (Place.upTo origin names).find? (disk.holds name) = some place) :
    disk.IsNearest name (names ++ origin) place :=
  ⟨(Place.mem_upTo.mp (List.mem_of_find?_eq_some h)).2, List.find?_some h, Place.find?_upTo h⟩

section
variable {disk : Disk} {name : Bytes} {cwd : Place} {d : Path}

theorem find?_isFile (htree : disk.IsTree) (hslash : Path.slash ∉ name) {as : List Path}
    (has : ∀ a ∈ as, a.IsSpelled ∧ (a.isAbsolute = true ∨ disk.cwd = some cwd) ∧
      a.bytes.length + 1 + name.length ≤ longestPath) :
    (as.map (·.join ⟨name⟩)).find? disk.isFile = (as.find? (disk.holds name <| cwd.along ·)).map (·.join ⟨name⟩) := by
  rw [List.find?_map]
  congr 1
  induction as with
  | nil => rfl
  | cons a as ih =>
    obtain ⟨⟨hspelled, hcwd, hlength⟩, has⟩ := List.forall_mem_cons.mp has
    have hsame : (disk.isFile ∘ (·.join ⟨name⟩)) a = disk.holds name (cwd.along a) :=
      isFile_join htree hspelled hcwd hslash hlength
    rw [List.find?_cons, List.find?_cons, hsame, ih has]

section
variable (htree : disk.IsTree) (hstart : d.isAbsolute = true ∨ disk.cwd = some cwd) (hslash : Path.slash ∉ name)
  (hd : d.IsNormal) (hlength : d.bytes.length + 1 + name.length ≤ longestPath)
include htree hstart hslash hd hlength

/-- The file that is found lies in the first place that holds one. -/
theorem nearest?_spec : match (d.searched cwd).find? (disk.holds name) with
    | none => disk.nearest? ⟨name⟩ d = none
    | some place => ∃ p, disk.nearest? ⟨name⟩ d = some p ∧ disk.locate p = .ok (name :: place) := by
  have hasked : ∀ a ∈ d.ancestors, a.IsSpelled ∧ (a.isAbsolute = true ∨ disk.cwd = some cwd) ∧
      a.bytes.length + 1 + name.length ≤ longestPath := by
    intro a ha
    obtain ⟨hspelled, hle⟩ := hd.mem_ancestors ha
    exact ⟨hspelled, hstart.imp_left (Path.isAbsolute_of_mem_ancestorsWithin _ · ha), by omega⟩
  -- no directory met going up has a longer path than `d`, so that the system takes them all
  rw [← hd.find?_ancestors cwd, List.find?_map]
  unfold nearest?
  rw [find?_isFile htree hslash hasked]
  cases hfirst : d.ancestors.find? (disk.holds name ∘ cwd.along) with
  | none => exact congrArg (Option.map (·.join ⟨name⟩)) hfirst
  | some a =>
    obtain ⟨hspelled, hcwd, hle⟩ := hasked a (List.mem_of_find?_eq_some hfirst)
    have hholds := List.find?_some hfirst
    refine ⟨a.join ⟨name⟩, congrArg (Option.map (·.join ⟨name⟩)) hfirst, ?_⟩
    exact locate_join htree hspelled hcwd hle (isSome_of_isRegular hholds)

end

end

end Disk

namespace SourceRoots

section
variable {disk : Disk} {cwd : Place} {name : Text} {d : Path} (htree : disk.IsTree)
  (hstart : d.isAbsolute = true ∨ disk.cwd = some cwd) (hname : '/' ∉ name) (hd : d.IsNormal)
  (hlength : d.bytes.length + 1 + (Utf8.encode name).length ≤ Disk.longestPath)
include htree hstart hname hd hlength

theorem exists_manifest? {place : Place} (h : (d.searched cwd).find? (disk.holds (Utf8.encode name)) = some place) :
    ∃ p, manifest? disk name d = some p ∧ disk.locate p = .ok (Utf8.encode name :: place) := by
  have hspec := Disk.nearest?_spec htree hstart (mt slash_mem_encode.mp hname) hd hlength
  rw [h] at hspec
  exact hspec

theorem manifest?_eq_none (h : (d.searched cwd).find? (disk.holds (Utf8.encode name)) = Option.none) :
    manifest? disk name d = Option.none := by
  have hspec := Disk.nearest?_spec htree hstart (mt slash_mem_encode.mp hname) hd hlength
  rw [h] at hspec
  exact hspec

theorem exists_manifest?_upTo {place : Place}
    (h : (Place.upTo (d.origin cwd) d.descent).find? (disk.holds (Utf8.encode name)) = some place) :
    ∃ p, manifest? disk name d = some p ∧ d.origin cwd <:+ place ∧
      disk.locate p = .ok (Utf8.encode name :: place) ∧ disk.IsNearest (Utf8.encode name) (cwd.along d) place := by
  have hsearched : (d.searched cwd).find? (disk.holds (Utf8.encode name)) = some place := by
    unfold Path.searched
    rw [List.find?_append, h]
    rfl
  obtain ⟨p, hp, hlocate⟩ := exists_manifest? htree hstart hname hd hlength hsearched
  have horigin := (Place.mem_upTo.mp (List.mem_of_find?_eq_some h)).1
  exact ⟨p, hp, horigin, hlocate, d.along_eq cwd ▸ Disk.isNearest_of_find? h⟩

end

/-- The manifest that is found for a directory is the nearest at or above it, and one is found if there is any on the
way up to where the directory's path starts. -/
theorem manifest?_isNearest {disk : Disk} {cwd : Place} {name : Text} {d : Path} (htree : disk.IsTree)
    (hstart : d.isAbsolute = true ∨ disk.cwd = some cwd) (hname : '/' ∉ name) (hd : d.IsNormal)
    (hlength : d.bytes.length + 1 + (Utf8.encode name).length ≤ Disk.longestPath) :
    (d.climb = 0 → ∀ p, manifest? disk name d = some p → ∃ place, d.origin cwd <:+ place ∧
      disk.locate p = .ok (Utf8.encode name :: place) ∧ disk.IsNearest (Utf8.encode name) (cwd.along d) place) ∧
    ∀ above, d.origin cwd <:+ above → above <:+ cwd.along d → disk.holds (Utf8.encode name) above = true →
      ∃ p place, manifest? disk name d = some p ∧ above <:+ place ∧ disk.locate p = .ok (Utf8.encode name :: place) ∧
        disk.IsNearest (Utf8.encode name) (cwd.along d) place := by
  constructor
  · intro hclimb p hp
    have hsearched : d.searched cwd = Place.upTo (d.origin cwd) d.descent := by
      unfold Path.searched
      rw [hclimb]
      exact List.append_nil _
    cases hfind : (Place.upTo (d.origin cwd) d.descent).find? (disk.holds (Utf8.encode name)) with
    | none =>
      rw [manifest?_eq_none htree hstart hname hd hlength (hsearched ▸ hfind)] at hp
      cases hp
    | some place =>
      obtain ⟨p', hp', hplace⟩ := exists_manifest?_upTo htree hstart hname hd hlength hfind
      obtain rfl := Option.some.inj (hp.symm.trans hp')
      exact ⟨place, hplace⟩
  · intro above horigin habove hholds
    have hmem : above ∈ Place.upTo (d.origin cwd) d.descent := Place.mem_upTo.mpr ⟨horigin, d.along_eq cwd ▸ habove⟩
    obtain ⟨place, hfind⟩ := Option.isSome_iff_exists.mp (List.find?_isSome.mpr ⟨above, hmem, hholds⟩)
    obtain ⟨p, hp, -, hlocate, hplace⟩ := exists_manifest?_upTo htree hstart hname hd hlength hfind
    refine ⟨p, place, hp, ?_, hlocate, hplace⟩
    rcases List.suffix_or_suffix_of_suffix habove hplace.above with h | h
    · exact h
    · -- a place below the nearest holds nothing
      by_cases he : above = place
      · exact he ▸ List.suffix_rfl
      · rw [hplace.not_nearer above h he habove] at hholds
        cases hholds

/-- One manifest in the working directory and one in a directory there, which has a directory of its own; none beside
the working directory. -/
def nestedManifests : Disk :=
  let name (s : String) := Utf8.encode s.toList
  ((((Disk.empty.workIn [name "app", name "work"]).makeFile [name "elm.json", name "app", name "work"] []).makeFile
    [name "elm.json", name "lib", name "app", name "work"] []).makeDirectory
    [name "ui", name "lib", name "app", name "work"]).makeDirectory [name "tools", name "work"]

theorem isTree_nestedManifests : nestedManifests.IsTree := by
  refine Disk.IsTree.makeDirectory (Disk.IsTree.makeDirectory (Disk.IsTree.make (Disk.IsTree.make
    (Disk.isTree_empty.workIn ?_ ?_) ?_ ?_ ?_ _) ?_ ?_ ?_ _) ?_ ?_) ?_ ?_
  all_goals decide +kernel

theorem manifest?_isNearest_nestedManifests :
    let name (s : String) := Utf8.encode s.toList
    let cwd : Place := [name "app", name "work"]
    let d := Path.ofString "lib/ui"
    nestedManifests.IsTree ∧ nestedManifests.cwd = some cwd ∧ '/' ∉ defaultManifest ∧ d.IsNormal ∧ d.climb = 0 ∧
      ∃ p, manifest? nestedManifests defaultManifest d = some p ∧
        nestedManifests.locate p = .ok [name "elm.json", name "lib", name "app", name "work"] ∧
        nestedManifests.IsNearest (name "elm.json") (cwd.along d) [name "lib", name "app", name "work"] := by
  intro name cwd d
  have hcwd : nestedManifests.cwd = some cwd := by decide +kernel
  have hname : '/' ∉ defaultManifest := by decide +kernel
  have hd : d.IsNormal := rfl
  have hclimb : d.climb = 0 := by decide +kernel
  obtain ⟨hnearest, -⟩ := manifest?_isNearest isTree_nestedManifests (.inr hcwd) hname hd (by decide +kernel)
  have hfound : manifest? nestedManifests defaultManifest d = some (.ofString "lib/elm.json") := rfl
  obtain ⟨place, -, hlocate, hplace⟩ := hnearest hclimb _ hfound
  have hlib : nestedManifests.locate (.ofString "lib/elm.json") =
      .ok [name "elm.json", name "lib", name "app", name "work"] := rfl
  obtain rfl := (List.cons.inj (Except.ok.inj (hlocate.symm.trans hlib))).2
  exact ⟨isTree_nestedManifests, hcwd, hname, hd, hclimb, _, hfound, hlib, hplace⟩

/-- Where no place at or above the directory holds a manifest, taking back the parent steps of its path leads down to
the working directory, and finds what lies on the way. -/
theorem manifest?_back {disk : Disk} {cwd : Place} {name : Text} {d : Path} (htree : disk.IsTree)
    (hstart : d.isAbsolute = true ∨ disk.cwd = some cwd) (hname : '/' ∉ name) (hd : d.IsNormal)
    (hlength : d.bytes.length + 1 + (Utf8.encode name).length ≤ Disk.longestPath)
    (hnone : ∀ above, above <:+ cwd.along d → disk.holds (Utf8.encode name) above = false) {place : Place}
    (hplace : (cwd.back d.climb).find? (disk.holds (Utf8.encode name)) = some place) :
    ∃ p, manifest? disk name d = some p ∧ disk.locate p = .ok (Utf8.encode name :: place) := by
  refine exists_manifest? htree hstart hname hd hlength ?_
  have hupTo : (Place.upTo (d.origin cwd) d.descent).find? (disk.holds (Utf8.encode name)) = Option.none := by
    rw [List.find?_eq_none]
    intro above habove
    have hsuffix := (Place.mem_upTo.mp habove).2
    rw [← d.along_eq] at hsuffix
    rw [hnone above hsuffix]
    exact Bool.false_ne_true
  unfold Path.searched
  rw [List.find?_append, hupTo]
  exact hplace

theorem manifest?_besideWorkingDirectory :
    let name (s : String) := Utf8.encode s.toList
    let cwd : Place := [name "app", name "work"]
    let d := Path.ofString "../tools"
    d.IsNormal ∧ (∀ above, above <:+ cwd.along d → nestedManifests.holds (name "elm.json") above = false) ∧
      ∃ p, manifest? nestedManifests defaultManifest d = some p ∧
        nestedManifests.locate p = .ok (name "elm.json" :: cwd) := by
  intro name cwd d
  have hcwd : nestedManifests.cwd = some cwd := by decide +kernel
  have hd : d.IsNormal := rfl
  have hnone (above : Place) (habove : above <:+ cwd.along d) :
      nestedManifests.holds (name "elm.json") above = false := by
    have hall : ∀ above ∈ Place.upTo [] (cwd.along d), nestedManifests.holds (name "elm.json") above = false := by
      decide +kernel
    exact hall above (Place.mem_upTo.mpr ⟨List.nil_suffix, by rwa [List.append_nil]⟩)
  exact ⟨hd, hnone, manifest?_back isTree_nestedManifests (.inr hcwd) (by decide +kernel) hd (by decide +kernel) hnone
    (by decide +kernel)⟩

end SourceRoots

end ElmImports
