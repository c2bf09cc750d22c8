import ElmImports.Proofs.Walk.Depth
import ElmImports.Proofs.Path.Sets

/-!
# Source roots that are remembered

A resolution remembers the source roots of the base directories that it has asked for. What it remembers is what
asking again would give, no directory is asked for twice, and one is asked for only when an import is missing below
it. One import decides all of this; a visit is a sequence of steps, of which only the entering of imports touches
what is remembered.
-/

namespace ElmImports.Project

/-- What a resolution remembers is what asking again would give, and all that was asked for is remembered. -/
structure Cached (P : Project) (r : Resolution) : Prop where
  fresh : ∀ base, base.IsNormal → ∀ dirs, r.roots[base]? = some dirs → dirs = P.sourceRoots P.disk base
  remembered : ∀ base ∈ r.asked.toList, r.roots[base]?.isSome
  once : r.asked.toList.Pairwise fun base base' => (base == base') = false

section
variable {P : Project} {base : Path} {r r' : Resolution} {m : ModuleName}

/-! ## What one import does to what is remembered -/

/-- `r'` remembers what `r` does, or has asked for the roots of the base directory and remembers them too. -/
inductive Learns (P : Project) (base : Path) (r r' : Resolution) : Prop
  | nothing : r'.roots = r.roots → r'.asked = r.asked → Learns P base r r'
  | roots : r.roots[base]? = none → r'.roots = r.roots.insert base (P.sourceRoots P.disk base) →
      r'.asked = r.asked.push base → Learns P base r r'

theorem learns_lookUp (P : Project) (base : Path) (r : Resolution) : Learns P base r (r.lookUp P base).2 := by
  unfold Resolution.lookUp
  split
  · exact .nothing rfl rfl
  · rename_i hnone
    exact .roots hnone rfl rfl

theorem target_of_missing (h : P.disk.isFile (m.pathUnder base P.layout) = false) (r : Resolution) :
    (P.target base m r).2 = (r.lookUp P base).2 := by
  unfold target
  rw [if_neg (by rw [h]; exact Bool.false_ne_true)]
  dsimp only
  split <;> rfl

theorem target_of_found (h : P.disk.isFile (m.pathUnder base P.layout) = true) (r : Resolution) :
    (P.target base m r).2 = r := by
  unfold target
  rw [if_pos h]

def LineMisses (P : Project) (base : Path) (line : Text) : Prop :=
  ∃ m, ModuleName.ofImportLine? line = some m ∧ P.disk.isFile (m.pathUnder base P.layout) = false

theorem learns_enterImport (P : Project) (base file : Path) (r : Resolution) (new : Array Path) (line : Text) :
    Learns P base r (P.enterImport base file r new line).1 ∧
      (P.LineMisses base line ∨ (P.enterImport base file r new line).1.asked = r.asked) := by
  cases hm : ModuleName.ofImportLine? line with
  | none =>
    have hsame : P.enterImport base file r new line = (r, new) := by
      unfold enterImport
      rw [hm]
    rw [hsame]
    exact ⟨.nothing rfl rfl, .inr rfl⟩
  | some m =>
    have hmemory : (P.enterImport base file r new line).1.roots = (P.target base m r).2.roots ∧
        (P.enterImport base file r new line).1.asked = (P.target base m r).2.asked := by
      unfold enterImport
      rw [hm]
      dsimp only
      split
      · exact ⟨rfl, rfl⟩
      · split <;> exact ⟨rfl, rfl⟩
    obtain ⟨hroots, hasked⟩ := hmemory
    cases hf : P.disk.isFile (m.pathUnder base P.layout) with
    | true =>
      rw [target_of_found hf] at hroots hasked
      exact ⟨.nothing hroots hasked, .inr hasked⟩
    | false =>
      rw [target_of_missing hf] at hroots hasked
      refine ⟨?_, .inl ⟨m, hm, hf⟩⟩
      cases learns_lookUp P base r with
      | nothing h₁ h₂ => exact .nothing (hroots.trans h₁) (hasked.trans h₂)
      | roots hnone h₁ h₂ => exact .roots hnone (hroots.trans h₁) (hasked.trans h₂)

/-! ## What is remembered stays fresh -/

theorem cached_empty (P : Project) : Cached P {} where
  fresh _ _ _ h := by
    rw [Std.TreeMap.getElem?_emptyc] at h
    cases h
  remembered := nofun
  once := .nil

theorem Cached.rootsOf (h : Cached P r) (hbase : base.IsNormal) : r.rootsOf P base = P.sourceRoots P.disk base := by
  unfold Resolution.rootsOf Resolution.lookUp
  cases hr : r.roots[base]? with
  | some dirs => exact h.fresh base hbase dirs hr
  | none => rfl

theorem Cached.congr (h : Cached P r) (hroots : r'.roots = r.roots) (hasked : r'.asked = r.asked) : Cached P r' := by
  constructor
  · rw [hroots]
    exact h.fresh
  · rw [hroots, hasked]
    exact h.remembered
  · rw [hasked]
    exact h.once

theorem Cached.learns (h : Cached P r) (hbase : base.IsNormal) (hr : Learns P base r r') : Cached P r' := by
  cases hr with
  | nothing hroots hasked => exact h.congr hroots hasked
  | roots hnone hroots hasked =>
    have hlist : r'.asked.toList = r.asked.toList ++ [base] := by rw [hasked, Array.toList_push]
    have hget (b : Path) : r'.roots[b]? =
        if compare base b = .eq then some (P.sourceRoots P.disk base) else r.roots[b]? := by
      rw [hroots, Std.TreeMap.getElem?_insert]
    refine ⟨fun b hb dirs hdirs => ?_, fun b hb => ?_, ?_⟩
    · rw [hget] at hdirs
      split at hdirs
      · rename_i he
        obtain rfl := hbase.eq_of_components_eq hb (Path.compare_eq_iff.mp he)
        exact (Option.some.inj hdirs).symm
      · exact h.fresh b hb dirs hdirs
    · rw [hget]
      split
      · rfl
      · rename_i hne
        rw [hlist, List.mem_append] at hb
        refine h.remembered b (hb.resolve_right fun he => hne ?_)
        rw [List.mem_singleton.mp he]
        exact Std.ReflCmp.compare_self
    · rw [hlist]
      refine List.pairwise_append.mpr ⟨h.once, List.pairwise_singleton _ _, fun b hb b' hb' => ?_⟩
      obtain rfl := List.mem_singleton.mp hb'
      refine Bool.eq_false_iff.mpr fun he => ?_
      -- a directory that was asked for is remembered, and this one was not
      have hsame : r.roots[b]? = r.roots[b']? :=
        Std.TreeMap.getElem?_congr (Path.compare_eq_iff.mpr (Path.beq_iff.mp he))
      have hsome := h.remembered b hb
      rw [hsame, hnone] at hsome
      cases hsome

end

/-! ## Steps of a visit -/

theorem Cached.mark {P : Project} {r : Resolution} (h : Cached P r) (file : Path) : Cached P (r.mark file) :=
  h.congr rfl rfl

theorem enterImports_keeps {P : Project} {base file : Path} {lines : List Text} {Inv : Resolution → Prop}
    (h : ∀ line ∈ lines, ∀ r new, Inv r → Inv (P.enterImport base file r new line).1) {r : Resolution} (hr : Inv r) :
    Inv (P.enterImports base file r lines).1 := by
  unfold enterImports
  generalize #[] = new
  induction lines generalizing r new with
  | nil => exact hr
  | cons line lines ih =>
    obtain ⟨hline, hlines⟩ := List.forall_mem_cons.mp h
    exact ih hlines (hline r new hr) _

theorem Cached.enterImports {P : Project} {base : Path} {r : Resolution} (h : Cached P r) (hbase : base.IsNormal)
    (file : Path) (lines : List Text) : Cached P (P.enterImports base file r lines).1 :=
  enterImports_keeps (fun line _ r new hr => hr.learns hbase (P.learns_enterImport base file r new line).1) h

structure Stepwise (P : Project) (base : Path) (Inv : Resolution → Prop) : Prop where
  failed : ∀ {r file}, P.disk.importLines? P.chunk file = none → Inv r → Inv (r.mark file)
  entered : ∀ {r file lines}, P.disk.importLines? P.chunk file = some lines → Inv r →
    Inv (P.enterImports base file (r.mark file) lines).1
  setAside : ∀ {r} file, Inv r → Inv (r.setAside file)
  dropped : ∀ {r}, Inv r → Inv r.dropUnreadable

section
variable {P : Project} {base : Path} {Inv : Resolution → Prop} (h : Stepwise P base Inv)
include h

theorem Stepwise.settle {v : Visit} (hv : Inv v.resolution) : Inv v.settle := by
  unfold Visit.settle
  cases v.status with
  | resolved => exact hv
  | unreadable => exact h.setAside _ hv

theorem Stepwise.leave {after : Resolution} (hafter : Inv after) (r : Resolution) : Inv (r.leave after) := by
  unfold Resolution.leave
  split
  · exact h.dropped hafter
  · exact hafter

theorem Stepwise.visitAllWithin {depth : Nat}
    (ih : ∀ file r v, P.visitWithin base depth file r = some v → Inv r → Inv v.resolution) :
    ∀ files r after, P.visitAllWithin base depth files r = some after → Inv r → Inv after
  | [], _, _, hafter, hr => by
    cases hafter
    exact hr
  | p :: files, r, after, hafter, hr => by
    rw [visitAllWithin_cons] at hafter
    obtain ⟨v, hv, hafter⟩ := Option.bind_eq_some_iff.mp hafter
    exact Stepwise.visitAllWithin ih files _ after hafter (h.settle (ih p r v hv hr))

theorem Stepwise.visitWithin (depth : Nat) : ∀ file r v, P.visitWithin base depth file r = some v →
    Inv r → Inv v.resolution := by
  induction depth with
  | zero => intro file r v hv; cases hv
  | succ depth ih =>
    intro file r v hv hr
    rw [visitWithin_succ] at hv
    by_cases hvisited : r.visited.contains file.normalize = true
    · rw [if_pos hvisited] at hv
      cases hv
      exact hr
    · rw [if_neg hvisited] at hv
      cases hl : P.disk.importLines? P.chunk file.normalize with
      | none =>
        rw [hl] at hv
        cases hv
        exact h.failed hl hr
      | some lines =>
        rw [hl] at hv
        obtain ⟨after, hafter, rfl⟩ := Option.map_eq_some_iff.mp hv
        exact h.leave (h.visitAllWithin ih _ _ after hafter (h.entered hl hr)) r

theorem Stepwise.visit {r : Resolution} (hr : Inv r) (file : Path) : Inv (P.visit base file r).resolution :=
  h.visitWithin _ _ _ _ (P.visitWithin_depthBound base r file) hr

end

theorem stepwise_cached (P : Project) {base : Path} (hbase : base.IsNormal) : Stepwise P base (Cached P) where
  failed _ h := h.mark _
  entered _ h := (h.mark _).enterImports hbase _ _
  setAside _ h := h.congr rfl rfl
  dropped h := h.congr rfl rfl

end ElmImports.Project
