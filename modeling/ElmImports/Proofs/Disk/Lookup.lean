import ElmImports.Proofs.Disk.Tree

/-!
# A file of a directory

On a tree, a file of a directory is found exactly if the place that the directory leads to holds it: a directory that is
spelled by kept steps leads there piece by piece if the place exists, and nothing else can be found behind it.
-/

namespace ElmImports

namespace Disk

def holds (disk : Disk) (name : Bytes) (place : Place) : Bool :=
  disk.isRegular (name :: place)

open Component (leadTo leadTo_name leadTo_parents)

variable {disk : Disk} {name : Bytes} {cwd : Place}

/-! ## A file of a directory -/

theorem foldlM_concat {before : List Bytes} {start place : Place} :
    (before ++ [name]).foldlM disk.enter start = .ok place ↔
      ∃ here, before.foldlM disk.enter start = .ok here ∧ disk.enter here name = .ok place := by
  rw [List.foldlM_append]
  cases before.foldlM disk.enter start with
  | error cause => exact iff_of_false nofun nofun
  | ok here =>
    show (disk.enter here name >>= pure) = _ ↔ _
    rw [bind_pure]
    exact ⟨fun h => ⟨here, rfl, h⟩, fun ⟨_, he, h⟩ => Except.ok.inj he ▸ h⟩

section
variable {a : Path} (hslash : Path.slash ∉ name)
include hslash

theorem isAbsolute_of_slash_not_mem : Path.isAbsolute ⟨name⟩ = false := by
  unfold Path.isAbsolute
  rw [beq_eq_false_iff_ne]
  exact fun he => hslash (List.mem_of_head? he)

theorem splitOn_join (a : Path) : ∃ before, (a.join ⟨name⟩).bytes.splitOn Path.slash = before ++ [name] := by
  have hname : name.splitOn Path.slash = [name] := List.splitOn_eq_singleton hslash
  unfold Path.join
  rw [if_neg (by rw [isAbsolute_of_slash_not_mem hslash]; exact Bool.false_ne_true)]
  split
  · rename_i hlast
    rcases List.eq_nil_or_concat a.bytes with hnil | ⟨init, last, hconcat⟩
    · exact ⟨[], by rw [hnil]; exact hname⟩
    · rw [hconcat, List.concat_eq_append] at hlast ⊢
      obtain rfl : last = Path.slash := by simpa using hlast
      refine ⟨init.splitOn Path.slash, ?_⟩
      dsimp only
      rw [List.append_assoc, List.singleton_append, List.splitOn_append_cons_self, hname]
  · refine ⟨a.bytes.splitOn Path.slash, ?_⟩
    dsimp only
    rw [List.splitOn_append_cons_self, hname]

theorem length_join_le (a : Path) : (a.join ⟨name⟩).bytes.length ≤ a.bytes.length + 1 + name.length := by
  unfold Path.join
  rw [if_neg (by rw [isAbsolute_of_slash_not_mem hslash]; exact Bool.false_ne_true)]
  split
  · dsimp only
    rw [List.length_append]
    omega
  · dsimp only
    rw [List.length_append, List.length_cons]
    omega

/-- Only a proper step can lead to a file: an empty piece and dots lead to directories. -/
theorem isStep_of_isFile_join (htree : disk.IsTree) (hfile : disk.isFile (a.join ⟨name⟩) = true) :
    (Component.name name).IsStep := by
  obtain ⟨place, hlocate, hregular⟩ := isFile_iff.mp hfile
  obtain ⟨start, -, hplace⟩ := locate_eq_ok hlocate
  obtain ⟨before, hpieces⟩ := splitOn_join hslash a
  obtain ⟨here, -, henter⟩ := foldlM_concat.mp (hpieces ▸ hplace)
  obtain ⟨hfollow, hhere⟩ := follow_of_enter henter
  have hnot (hdirectory : disk.isDirectory place = true) : False := by
    rw [not_isDirectory_of_isRegular hregular] at hdirectory
    cases hdirectory
  refine Path.isStep_name ?_ ?_ ?_ hslash
  · rintro rfl
    exact hnot (hfollow ▸ hhere)
  · rintro rfl
    exact hnot (hfollow ▸ hhere)
  · rintro rfl
    exact hnot (hfollow ▸ htree.isDirectory_tail hhere)

end

/-- The pieces of kept steps lead from where the steps start to the directory they lead to. -/
theorem enter_kept (htree : disk.IsTree) : ∀ {kept : List Component}, Path.Kept kept →
    (.root ∈ kept ∨ disk.isDirectory cwd = true) → disk.isDirectory (leadTo cwd kept) = true →
    (kept.reverse.map Component.piece).foldlM disk.enter (if .root ∈ kept then [] else cwd) = .ok (leadTo cwd kept)
  | [], _, _, _ => rfl
  | .root :: kept, hkept, _, _ => by
    have hnil : kept = [] := hkept
    subst hnil
    rfl
  | .parent :: kept, hkept, hstart, _ => by
    have hroot : .root ∉ kept := fun hmem => nomatch hkept .root hmem
    have hcwd : disk.isDirectory cwd = true := hstart.resolve_left (by simpa using hroot)
    have hplace : disk.isDirectory (leadTo cwd kept) = true := by
      rw [leadTo_parents cwd hkept]
      exact htree.isDirectory_drop hcwd _
    have hbefore := enter_kept htree (Path.kept_of_parents hkept) (.inr hcwd) hplace
    have htail : leadTo cwd (.parent :: kept) = (leadTo cwd kept).tail := by
      rw [leadTo_parents cwd hkept, leadTo_parents cwd (List.forall_mem_cons.mpr ⟨rfl, hkept⟩), List.tail_drop]
      rfl
    rw [List.reverse_cons, List.map_append, htail]
    exact foldlM_concat.mpr ⟨leadTo cwd kept, by simpa using hbefore, enter_parent hplace⟩
  | .name bytes :: kept, hkept, hstart, hplace => by
    rw [leadTo_name] at hplace ⊢
    have hnode := isSome_of_isDirectory hplace
    have hbefore := enter_kept htree hkept.2 (by simpa using hstart) (htree.parent hnode)
    rw [List.reverse_cons, List.map_append]
    exact foldlM_concat.mpr ⟨leadTo cwd kept, by simpa using hbefore, htree.enter_name hnode⟩

/-- Ahead of its last piece the path leads to `place`. -/
def Passes (disk : Disk) (p : Path) (name : Bytes) (place : Place) : Prop :=
  ∃ before start, p.bytes.splitOn Path.slash = before ++ [name] ∧ (∀ piece ∈ before, 0 ∉ piece) ∧
    disk.start p = .ok start ∧ before.foldlM disk.enter start = .ok place

theorem locate_of_passes {p : Path} {place : Place} (htree : disk.IsTree) (h : disk.Passes p name place)
    (hlength : p.bytes.length ≤ longestPath) (hnode : (disk.node? (name :: place)).isSome) :
    disk.locate p = .ok (name :: place) := by
  obtain ⟨before, start, hpieces, hnul, hstart, hbefore⟩ := h
  have hname := htree.name hnode
  have hnot : 0 ∉ p.bytes := by
    rw [← show [Path.slash].intercalate (p.bytes.splitOn Path.slash) = p.bytes from List.intercalate_splitOn _, hpieces]
    intro hmem
    rcases Pieces.mem_intercalate hmem with hslash | ⟨piece, hpiece, hmem⟩
    · cases hslash
    · rcases List.mem_append.mp hpiece with hpiece | hpiece
      · exact hnul piece hpiece hmem
      · exact hname.nul (List.mem_singleton.mp hpiece ▸ hmem)
  have hne : p.isEmpty = false := by
    unfold Path.isEmpty
    refine List.isEmpty_eq_false_iff.mpr fun hnil => hname.step.ne_nil ?_
    rw [hnil, List.splitOn_nil] at hpieces
    have hlast := congrArg List.getLast? hpieces
    rw [List.getLast?_concat] at hlast
    exact (Option.some.inj hlast).symm
  unfold locate
  rw [if_neg (by simpa using hnot), if_neg (by rw [hne]; exact Bool.false_ne_true), if_neg (Nat.not_lt_of_le hlength),
    hstart, hpieces]
  exact foldlM_concat.mpr ⟨place, hbefore, htree.enter_name hnode⟩

theorem passes_dot (htree : disk.IsTree) (hcwd : disk.cwd = some cwd) (hslash : Path.slash ∉ name) :
    disk.Passes (Path.join ⟨[Path.dot]⟩ ⟨name⟩) name cwd := by
  have hjoin : Path.join ⟨[Path.dot]⟩ ⟨name⟩ = ⟨[Path.dot] ++ Path.slash :: name⟩ := by
    unfold Path.join
    rw [if_neg (by rw [isAbsolute_of_slash_not_mem hslash]; exact Bool.false_ne_true)]
    rfl
  have hpieces : (Path.join ⟨[Path.dot]⟩ ⟨name⟩).bytes.splitOn Path.slash = [[Path.dot]] ++ [name] := by
    rw [hjoin, List.splitOn_append_cons_self, List.splitOn_eq_singleton hslash]
    rfl
  have hstart : disk.start (Path.join ⟨[Path.dot]⟩ ⟨name⟩) = .ok cwd := by
    rw [hjoin]
    unfold Disk.start
    rw [hcwd]
    rfl
  have hdot : disk.enter cwd [Path.dot] = .ok cwd := by
    unfold enter
    rw [htree.cwd hcwd]
    rfl
  refine ⟨_, _, hpieces, by decide, hstart, ?_⟩
  rw [List.foldlM_cons, hdot]
  rfl

theorem start_eq {p : Path} (h : p.isAbsolute = true ∨ disk.cwd = some cwd) :
    disk.start p = .ok (if .root ∈ p.steps then [] else cwd) := by
  unfold Disk.start
  by_cases habsolute : p.isAbsolute = true
  · rw [if_pos habsolute, if_pos (Path.isAbsolute_iff_root_mem_steps.mp habsolute)]
  · rw [if_neg habsolute, if_neg (mt Path.isAbsolute_iff_root_mem_steps.mpr habsolute), h.resolve_left habsolute]

theorem passes_spelled {kept : List Component} (htree : disk.IsTree) (hkept : Path.Kept kept)
    (hcwd : (Path.spelled kept).isAbsolute = true ∨ disk.cwd = some cwd) (hname : IsFileName name)
    (hplace : disk.isDirectory (leadTo cwd kept) = true) :
    disk.Passes ((Path.spelled kept).join ⟨name⟩) name (leadTo cwd kept) := by
  have hkept' : Path.Kept (.name name :: kept) := And.intro hname.step hkept
  obtain ⟨below, lead, he, hlead, hbelow⟩ := Path.exists_lead hkept
  have hsteps : ∀ c ∈ Component.name name :: below, c.IsStep := List.forall_mem_cons.mpr ⟨hname.step, hbelow⟩
  have hjoin : (Path.spelled kept).join ⟨name⟩ = Path.spelled (.name name :: kept) := by
    rw [he]
    exact Path.join_spelled hlead hname.step hbelow
  have hpieces : (Path.spelled (.name name :: kept)).bytes.splitOn Path.slash =
      kept.reverse.map Component.piece ++ [name] := by
    have hsplit := Path.splitOn_spelled hlead hsteps (List.cons_ne_nil _ _)
    rw [List.cons_append, ← he, List.reverse_cons, List.map_append] at hsplit
    exact hsplit
  have hroot : Component.root ∈ Component.name name :: kept ↔ .root ∈ kept := by simp
  have hstart : disk.start (Path.spelled (.name name :: kept)) = .ok (if .root ∈ kept then [] else cwd) := by
    have habsolute := hcwd.imp_left fun habsolute => Path.isAbsolute_join habsolute ⟨name⟩
    rw [hjoin] at habsolute
    rw [start_eq habsolute, Path.steps_spelled hkept']
    simp only [hroot]
  have hcwd' : .root ∈ kept ∨ disk.isDirectory cwd = true := by
    rw [← Path.steps_spelled hkept, ← Path.isAbsolute_iff_root_mem_steps]
    exact hcwd.imp_right htree.cwd
  -- the names on the way to a directory that exists have no NUL in them
  have hnames := (htree.above (isSome_of_isDirectory hplace)).2
  rw [hjoin]
  refine ⟨_, _, hpieces, fun piece hpiece => ?_, hstart, enter_kept htree hkept hcwd' hplace⟩
  obtain ⟨c, hc, rfl⟩ := List.mem_map.mp hpiece
  cases c with
  | root => exact List.not_mem_nil
  | current => exact by decide
  | parent => exact by decide
  | name bytes => exact (hnames bytes (List.mem_filterMap.mpr ⟨_, List.mem_reverse.mp hc, rfl⟩)).nul

/-! ## Held and found -/

section
variable {a : Path} (htree : disk.IsTree) (ha : a.IsSpelled) (hcwd : a.isAbsolute = true ∨ disk.cwd = some cwd)
  (hslash : Path.slash ∉ name) (hlength : a.bytes.length + 1 + name.length ≤ longestPath)
include htree ha hcwd hlength

theorem locate_join (hnode : (disk.node? (name :: cwd.along a)).isSome) :
    disk.locate (a.join ⟨name⟩) = .ok (name :: cwd.along a) := by
  have hname := htree.name hnode
  have hplace := htree.parent hnode
  refine locate_of_passes htree ?_ (Nat.le_trans (length_join_le hname.step.2 a) hlength) hnode
  rcases ha with rfl | ⟨kept, hkept, rfl⟩
  · exact passes_dot htree (hcwd.resolve_left Bool.false_ne_true) hname.step.2
  · have hto : cwd.along (Path.spelled kept) = leadTo cwd kept := cwd.along_spelled hkept
    rw [hto] at hplace ⊢
    exact passes_spelled htree hkept hcwd hname hplace

include hslash in
theorem isFile_join : disk.isFile (a.join ⟨name⟩) = disk.holds name (cwd.along a) := by
  rw [Bool.eq_iff_iff]
  unfold holds
  constructor
  · intro hfile
    have hstep := isStep_of_isFile_join hslash htree hfile
    obtain ⟨place, hlocate, hregular⟩ := isFile_iff.mp hfile
    have hplace := along_of_locate (hcwd.imp_left fun habsolute => Path.isAbsolute_join habsolute _) hlocate
    obtain ⟨hopening, hcomponents⟩ := Path.components_of_isStep hstep
    have hsteps : (a.join ⟨name⟩).steps = .name name :: a.steps := by
      rw [Path.steps_join (Path.isAbsolute_of_opening_eq_nil hopening), hcomponents]
      rfl
    rw [hplace, Place.along_eq_leadTo, hsteps, leadTo_name, ← Place.along_eq_leadTo] at hregular
    exact hregular
  · intro hholds
    exact isFile_iff.mpr ⟨_, locate_join htree ha hcwd hlength (isSome_of_isRegular hholds), hholds⟩

end

end Disk

end ElmImports
