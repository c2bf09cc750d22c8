import ElmImports.Disk.Change
import ElmImports.Proofs.ImportBlock.Scan
import ElmImports.Proofs.Lists.Firsts
import ElmImports.Proofs.Walk.Invariant
import ElmImports.Walk.Report

/-!
# A walk is a plain traversal

A plain depth-first traversal takes nothing back while it runs: it lists the target of every import when
it meets it for the first time, visits the new sources of a file in that order, and leaves out what could
not be read only in the end. A walk, which skips imports that are known to be unreadable and drops
dependencies whenever a file is left, reports the same.
-/

namespace ElmImports

/-! ## The traversal -/

structure Traversal where
  visited : PathSet := ∅
  unreadable : PathSet := ∅
  listed : List Path := []
  edges : List (Path × Path) := []

namespace Traversal

def meet (s : Traversal) (file target : Path) : Traversal :=
  let met := { s with edges := s.edges ++ [(file, target)] }
  if s.listed.contains target then met else { met with listed := s.listed ++ [target] }

def enter (file : Path) : List Path → Traversal → Traversal × List Path
  | [], s => (s, [])
  | target :: targets, s =>
    let after := enter file targets (s.meet file target)
    (after.1, if s.listed.contains target then after.2 else target :: after.2)

def dependencies (s : Traversal) : List Path :=
  s.listed.filter (! s.unreadable.contains ·)

def imports (s : Traversal) : List (Path × Path) :=
  s.edges.filter fun (importer, imported) =>
    ! s.unreadable.contains importer && ! s.unreadable.contains imported

end Traversal

namespace Project

/-- A traversal that goes at most `depth` files deep; `none` if that does not suffice. -/
def traverseWithin (P : Project) (base : Path) : Nat → Path → Traversal → Option Traversal
  | 0, _, _ => none
  | depth + 1, file, s =>
    if s.visited.contains file then some s
    else
      let s := { s with visited := s.visited.insert file }
      match P.disk.importLines? P.chunk file with
      | none => some { s with unreadable := s.unreadable.insert file }
      | some lines =>
        let (entered, new) := s.enter file (P.targetsIn base (P.sourceRoots P.disk base) lines)
        (P.sourcesIn new).foldlM (fun s p => traverseWithin P base depth p s) entered

end Project

/-! ## Outside a set -/

/-- Lists that agree outside a set agree outside a larger one. -/
theorem filter_insert_congr {α : Type} (s : PathSet) (p : Path) (f : α → Path) {l l' : List α}
    (h : (l.filter fun a => ! s.contains (f a)) = l'.filter fun a => ! s.contains (f a)) :
    (l.filter fun a => ! (s.insert p).contains (f a)) = l'.filter fun a => ! (s.insert p).contains (f a) := by
  have hfilter (l : List α) : (l.filter fun a => ! (s.insert p).contains (f a)) =
      (l.filter fun a => ! s.contains (f a)).filter fun a => ! (s.insert p).contains (f a) := by
    rw [List.filter_filter]
    refine List.filter_congr fun a _ => ?_
    cases hs : s.contains (f a) with
    | true => rw [contains_of_subset (toList_subset_insert s p) hs]; rfl
    | false => simp
  rw [hfilter l, h, ← hfilter]

/-! ## Meeting a target -/

namespace Traversal

variable {s : Traversal} {file target : Path}

theorem meet_of_listed (h : s.listed.contains target = true) :
    s.meet file target = { s with edges := s.edges ++ [(file, target)] } := by
  simp only [meet, h, if_true]

theorem meet_of_not_listed (h : s.listed.contains target = false) :
    s.meet file target =
      { s with edges := s.edges ++ [(file, target)], listed := s.listed ++ [target] } := by
  simp only [meet, h, Bool.false_eq_true, if_false]

theorem listed_meet (s : Traversal) (file target : Path) :
    s.listed ⊆ (s.meet file target).listed ∧
      (s.listed.contains target = false → target ∈ (s.meet file target).listed) := by
  cases hc : s.listed.contains target with
  | true => rw [meet_of_listed hc]; exact ⟨List.Subset.refl _, nofun⟩
  | false =>
    rw [meet_of_not_listed hc]
    exact ⟨List.subset_append_left _ _, fun _ => List.mem_append_right _ (List.mem_singleton_self _)⟩

/-- What is new is listed. -/
theorem listed_enter (file : Path) : ∀ (targets : List Path) (s : Traversal),
    s.listed ⊆ (s.enter file targets).1.listed ∧ (s.enter file targets).2 ⊆ (s.enter file targets).1.listed
  | [], _ => ⟨List.Subset.refl _, List.nil_subset _⟩
  | target :: targets, s => by
    obtain ⟨hkept, hnew⟩ := listed_enter file targets (s.meet file target)
    obtain ⟨hmeet, htarget⟩ := listed_meet s file target
    rw [enter]
    refine ⟨List.Subset.trans hmeet hkept, ?_⟩
    dsimp only
    split
    · exact hnew
    · rename_i hc
      exact List.cons_subset.mpr ⟨hkept (htarget (by simpa using hc)), hnew⟩

structure Orderly (P : Project) (s : Traversal) : Prop where
  normal : ∀ p ∈ s.listed, p.IsNormal
  firsts : s.listed = (s.edges.map Prod.snd).eraseDups
  importer : ∀ e ∈ s.edges, e.1.IsNormal ∧ P.disk.importLines? P.chunk e.1 ≠ none

section
variable {P : Project}

theorem Orderly.contains_iff (h : Orderly P s) (ht : target.IsNormal) :
    s.listed.contains target = true ↔ target ∈ s.listed :=
  contains_of_normal h.normal ht

theorem Orderly.meet (h : Orderly P s) (hf : file.IsNormal) (hl : P.disk.importLines? P.chunk file ≠ none)
    (ht : target.IsNormal) : Orderly P (s.meet file target) := by
  have hfirsts := eraseDups_concat target (s.edges.map Prod.snd)
  have himporter : ∀ e ∈ s.edges ++ [(file, target)],
      e.1.IsNormal ∧ P.disk.importLines? P.chunk e.1 ≠ none := by
    intro e he
    rcases List.mem_append.mp he with he | he
    · exact h.importer e he
    · rw [List.mem_singleton.mp he]
      exact ⟨hf, hl⟩
  rw [← h.firsts] at hfirsts
  cases hc : s.listed.contains target with
  | true =>
    rw [meet_of_listed hc]
    refine ⟨h.normal, ?_, himporter⟩
    simp [hfirsts, hc]
  | false =>
    rw [meet_of_not_listed hc]
    refine ⟨?_, ?_, himporter⟩
    · intro p hp
      rcases List.mem_append.mp hp with hp | hp
      · exact h.normal p hp
      · rw [List.mem_singleton.mp hp]
        exact ht
    · simp [hfirsts, hc]

end

end Traversal

namespace Project

/-! ## A walk and a traversal side by side -/

/-- The resolution has found what the traversal has, but for what cannot be read. -/
structure Follows (P : Project) (base : Path) (r : Resolution) (s : Traversal) : Prop where
  wellFormed : WellFormed P r
  orderly : s.Orderly P
  roots : r.rootsOf P base = P.sourceRoots P.disk base
  visited : s.visited = r.visited
  unreadable : s.unreadable = r.unreadable
  known : (r.known.toList.filter fun p => ! r.unreadable.contains p) =
    s.listed.filter fun p => ! r.unreadable.contains p
  edges : (r.edges.toList.filter fun e => ! r.unreadable.contains e.2) =
    s.edges.filter fun e => ! r.unreadable.contains e.2
  tried : ∀ p ∈ r.unreadable.toList, p ∈ s.listed

section
variable {P : Project} {base file target : Path} {r r' after : Resolution} {s : Traversal}

/-- What can be read is known as soon as it is listed. -/
theorem Follows.mem_known_iff (h : Follows P base r s) (hu : r.unreadable.contains target = false) :
    target ∈ r.known.toList ↔ target ∈ s.listed := by
  have hfilter (l : List Path) : target ∈ (l.filter fun p => ! r.unreadable.contains p) ↔ target ∈ l := by
    simp [hu]
  rw [← hfilter, h.known, hfilter]

theorem Follows.mark (h : Follows P base r s) (hf : file.IsNormal) :
    Follows P base (r.mark file) { s with visited := s.visited.insert file } :=
  { h with
    wellFormed := h.wellFormed.mark hf
    orderly := ⟨h.orderly.normal, h.orderly.firsts, h.orderly.importer⟩
    roots := (grows_mark P base r file).roots.trans h.roots
    visited := by rw [h.visited]; rfl }

theorem Follows.setAside (h : Follows P base r s) (hf : Visitable P file) (hv : file ∈ r.visited.toList)
    (hl : P.disk.importLines? P.chunk file = none) (hlisted : file ∈ s.listed) :
    Follows P base (r.setAside file) { s with unreadable := s.unreadable.insert file } := by
  refine { h with
    wellFormed := h.wellFormed.setAside hf hv hl
    orderly := ⟨h.orderly.normal, h.orderly.firsts, h.orderly.importer⟩
    roots := (grows_setAside P base r file).roots.trans h.roots
    unreadable := by rw [h.unreadable]; rfl
    known := filter_insert_congr r.unreadable file id h.known
    edges := filter_insert_congr r.unreadable file Prod.snd h.edges
    tried := ?_ }
  intro p hp
  rcases (h.wellFormed.mem_setAside hf.normal).mp hp with rfl | hp
  · exact hlisted
  · exact h.tried p hp

theorem Follows.leave (h : Follows P base after s) (r : Resolution) : Follows P base (r.leave after) s := by
  unfold Resolution.leave
  split
  · refine { h with
      wellFormed := h.wellFormed.dropUnreadable
      roots := (grows_dropUnreadable P base after).roots.trans h.roots
      known := ?_ }
    show ((after.known.exclude after.unreadable).toList.filter fun p => ! after.unreadable.contains p) = _
    rw [Dependencies.toList_exclude, List.filter_filter]
    simp only [Bool.and_self]
    exact h.known
  · exact h

/-! ## Entering imports -/

theorem follows_enterImport (h : Follows P base r s) (hf : file.IsNormal) (hl : P.disk.importLines? P.chunk file ≠ none)
    {line : Text} {m : ModuleName} (hm : ModuleName.ofImportLine? line = some m) (new : Array Path)
    (ht : P.targetIn base (P.sourceRoots P.disk base) m = target) :
    (P.enterImport base file r new line).2 = (if s.listed.contains target then new else new.push target) ∧
      Follows P base (P.enterImport base file r new line).1 (s.meet file target) := by
  obtain ⟨roots, asked, htarget, hroots⟩ := P.target_eq base m r
  rw [h.roots, ht] at htarget
  rw [h.roots] at hroots
  have hnormal : target.IsNormal := ht ▸ isNormal_targetIn _ m
  have hwf : WellFormed P (P.enterImport base file r new line).1 := by
    obtain ⟨_, he, _⟩ := entered_enterImport P base file r new line
    exact h.wellFormed.enter he
  have horderly := h.orderly.meet hf hl hnormal
  have hlisted := h.orderly.contains_iff hnormal
  unfold enterImport at hwf ⊢
  simp only [hm, htarget] at hwf ⊢
  cases hu : r.unreadable.contains target with
  | true =>
    simp only [hu, if_true] at hwf ⊢
    have hc := hlisted.mpr (h.tried target ((h.wellFormed.contains_unreadable hnormal).mp hu))
    rw [Traversal.meet_of_listed hc] at horderly ⊢
    refine ⟨by rw [if_pos hc], hwf, horderly, hroots _ rfl, h.visited, h.unreadable, h.known, ?_, h.tried⟩
    simp [h.edges, hu]
  | false =>
    have hedges : ((r.edges.push (file, target)).toList.filter fun e => ! r.unreadable.contains e.2) =
        (s.edges ++ [(file, target)]).filter fun e => ! r.unreadable.contains e.2 := by
      simp [h.edges]
    simp only [hu, Bool.false_eq_true, if_false] at hwf ⊢
    cases hi : r.known.insert? target with
    | none =>
      simp only [hi] at hwf ⊢
      have hknown : target ∈ r.known.toList := hnormal ▸ (h.wellFormed.known.insert?_eq_none_iff target).mp hi
      have hc := hlisted.mpr ((h.mem_known_iff hu).mp hknown)
      rw [Traversal.meet_of_listed hc] at horderly ⊢
      exact ⟨by rw [if_pos hc], hwf, horderly, hroots _ rfl, h.visited, h.unreadable, h.known, hedges, h.tried⟩
    | some known =>
      simp only [hi] at hwf ⊢
      have hc : s.listed.contains target = false := by
        rw [Bool.eq_false_iff]
        intro hc
        have hknown := (h.mem_known_iff hu).mpr (hlisted.mp hc)
        rw [(h.wellFormed.known.insert?_eq_none_iff target).mpr (hnormal.symm ▸ hknown)] at hi
        cases hi
      have hlist : known.toList = r.known.toList ++ [target] := by
        rw [Dependencies.toList_insert? hi, hnormal]
      rw [Traversal.meet_of_not_listed hc] at horderly ⊢
      refine ⟨by simp [hc], hwf, horderly, hroots _ rfl, h.visited, h.unreadable, ?_, hedges, ?_⟩
      · simp [hlist, h.known]
      · exact fun p hp => List.mem_append_left _ (h.tried p hp)

/-- Entering the imports of a file finds the same new dependencies on both sides. -/
theorem follows_foldl (hf : file.IsNormal) (hl : P.disk.importLines? P.chunk file ≠ none) :
    ∀ (lines : List Text) {r : Resolution} {s : Traversal} (new : Array Path), Follows P base r s →
    let entered := lines.foldl (fun (r, new) line => P.enterImport base file r new line) (r, new)
    let met := s.enter file (P.targetsIn base (P.sourceRoots P.disk base) lines)
    entered.2.toList = new.toList ++ met.2 ∧ Follows P base entered.1 met.1
  | [], _, _, _, h => ⟨(List.append_nil _).symm, h⟩
  | line :: lines, r, s, new, h => by
    cases hm : ModuleName.ofImportLine? line with
    | none =>
      have hskip : P.enterImport base file r new line = (r, new) := by
        simp only [enterImport, hm]
      have htargets : P.targetsIn base (P.sourceRoots P.disk base) (line :: lines) =
          P.targetsIn base (P.sourceRoots P.disk base) lines := by
        simp [targetsIn, hm]
      have hrest := follows_foldl hf hl lines new h
      rw [List.foldl_cons]
      dsimp only
      rw [hskip, htargets]
      exact hrest
    | some m =>
      obtain ⟨hnew, hstep⟩ := follows_enterImport h hf hl hm new rfl
      have htargets : P.targetsIn base (P.sourceRoots P.disk base) (line :: lines) =
          P.targetIn base (P.sourceRoots P.disk base) m ::
            P.targetsIn base (P.sourceRoots P.disk base) lines := by
        simp [targetsIn, hm]
      obtain ⟨hrest, hfollows⟩ := follows_foldl hf hl lines (P.enterImport base file r new line).2 hstep
      rw [List.foldl_cons]
      dsimp only
      rw [htargets]
      refine ⟨hrest.trans ?_, hfollows⟩
      rw [hnew, Traversal.enter]
      split
      · rfl
      · simp

theorem Follows.enter (h : Follows P base r s) (hf : file.IsNormal) {lines : List Text}
    (hl : P.disk.importLines? P.chunk file = some lines) :
    let entered := P.enterImports base file r lines
    let met := s.enter file (P.targetsIn base (P.sourceRoots P.disk base) lines)
    entered.2.toList = met.2 ∧ Follows P base entered.1 met.1 := by
  have hscannable : P.disk.importLines? P.chunk file ≠ none := by rw [hl]; exact nofun
  have hall := follows_foldl hf hscannable lines #[] h
  simp only [List.nil_append] at hall
  exact hall

end

/-! ## Visits side by side -/

structure Awaited (P : Project) (s : Traversal) (file : Path) : Prop where
  visitable : Visitable P file
  listed : P.disk.importLines? P.chunk file = none → file ∈ s.listed

section
variable {P : Project} {base : Path}

theorem follows_visitAllWithin {depth : Nat}
    (ih : ∀ file r s v, Follows P base r s → Awaited P s file → P.visitWithin base depth file r = some v →
      ∃ t, (∀ depth', depth ≤ depth' → P.traverseWithin base depth' file s = some t) ∧
        Follows P base v.settle t ∧ s.listed ⊆ t.listed) :
    ∀ files r s after, Follows P base r s → (∀ p ∈ files, Awaited P s p) →
      P.visitAllWithin base depth files r = some after →
      ∃ t, (∀ depth', depth ≤ depth' → files.foldlM (fun s p => P.traverseWithin base depth' p s) s = some t) ∧
        Follows P base after t ∧ s.listed ⊆ t.listed
  | [], r, s, after, h, _, hall => by
    cases hall
    exact ⟨s, fun _ _ => rfl, h, List.Subset.refl _⟩
  | p :: files, r, s, after, h, hfiles, hall => by
    rw [visitAllWithin_cons] at hall
    obtain ⟨v, hv, hrest⟩ := Option.bind_eq_some_iff.mp hall
    obtain ⟨hp, hps⟩ := List.forall_mem_cons.mp hfiles
    obtain ⟨t, ht, hfollows, hgrow⟩ := ih p r s v h hp hv
    have hps : ∀ q ∈ files, Awaited P t q :=
      fun q hq => ⟨(hps q hq).visitable, fun hl => hgrow ((hps q hq).listed hl)⟩
    obtain ⟨t', ht', hfollows', hgrow'⟩ := follows_visitAllWithin ih files v.settle t after hfollows hps hrest
    refine ⟨t', fun depth' hle => ?_, hfollows', List.Subset.trans hgrow hgrow'⟩
    rw [List.foldlM_cons, ht depth' hle]
    exact ht' depth' hle

theorem follows_visitWithin (depth : Nat) : ∀ file r s v, Follows P base r s → Awaited P s file →
    P.visitWithin base depth file r = some v →
    ∃ t, (∀ depth', depth ≤ depth' → P.traverseWithin base depth' file s = some t) ∧
      Follows P base v.settle t ∧ s.listed ⊆ t.listed := by
  induction depth with
  | zero => intro file r s v _ _ hv; cases hv
  | succ depth ih =>
    intro file r s v h hf hv
    have hnormal : file.normalize = file := hf.visitable.normal
    rw [visitWithin_succ, hnormal] at hv
    -- one more level on the traversal's side, however deep it may go below
    suffices hs : ∃ t, (∀ depth', depth ≤ depth' → P.traverseWithin base (depth' + 1) file s = some t) ∧
        Follows P base v.settle t ∧ s.listed ⊆ t.listed by
      obtain ⟨t, ht, hrest⟩ := hs
      refine ⟨t, fun depth' hle => ?_, hrest⟩
      obtain ⟨depth', rfl⟩ := Nat.exists_eq_add_of_le' (Nat.le_trans (Nat.succ_pos depth) hle)
      exact ht depth' (Nat.le_of_succ_le_succ hle)
    simp only [traverseWithin]
    rw [h.visited]
    cases hc : r.visited.contains file with
    | true =>
      rw [hc, if_pos rfl] at hv
      cases hv
      exact ⟨s, fun _ _ => rfl, h, List.Subset.refl _⟩
    | false =>
      have hmark := h.mark hf.visitable.normal
      rw [h.visited] at hmark
      rw [hc, if_neg Bool.false_ne_true] at hv
      simp only [Bool.false_eq_true, if_false]
      cases hl : P.disk.importLines? P.chunk file with
      | none =>
        rw [hl] at hv
        cases hv
        have hmarked := (h.wellFormed.mem_mark hf.visitable.normal).mpr (.inl rfl)
        have haside := hmark.setAside hf.visitable hmarked hl (hf.listed hl)
        exact ⟨_, fun _ _ => rfl, haside, List.Subset.refl _⟩
      | some lines =>
        rw [hl] at hv
        obtain ⟨after, hafter, rfl⟩ := Option.map_eq_some_iff.mp hv
        obtain ⟨hnew, hentered⟩ := hmark.enter hf.visitable.normal hl
        have hvisitable := (entered_enterImports P base file (r.mark file) lines).visitable
        rw [hnew] at hafter hvisitable
        obtain ⟨hlisted, hfound⟩ := Traversal.listed_enter file
          (P.targetsIn base (P.sourceRoots P.disk base) lines) { s with visited := r.visited.insert file }
        have hawaited := fun p hp => Awaited.mk (hvisitable p hp) fun _ => hfound (List.mem_filter.mp hp).1
        obtain ⟨t, ht, hfollows, hgrow⟩ := follows_visitAllWithin ih _ _ _ _ hentered hawaited hafter
        exact ⟨t, ht, hfollows.leave r, List.Subset.trans hlisted hgrow⟩

theorem follows_empty (P : Project) (base : Path) : Follows P base {} {} where
  wellFormed := wellFormed_empty P
  orderly := ⟨nofun, rfl, nofun⟩
  roots := by
    unfold Resolution.rootsOf Resolution.lookUp
    rw [Std.TreeMap.getElem?_emptyc]
  visited := rfl
  unreadable := rfl
  known := rfl
  edges := rfl
  tried := nofun

theorem Visits.settle_of_scannable {entry : Path} {r : Resolution} {v : Visit} (hv : Visits P base entry r v)
    (hl : P.disk.importLines? P.chunk entry ≠ none) : v.settle = v.resolution := by
  cases hv with
  | seen _ => rfl
  | failed _ hn => exact absurd hn hl
  | scanned _ _ _ _ => rfl

/-- A walk from a file that can be scanned ends as its traversal does. -/
theorem follows_visit (base : Path) {entry : Path} (hl : P.disk.importLines? P.chunk entry.normalize ≠ none) :
    ∃ t, (∀ depth, P.depthBound base {} ≤ depth → P.traverseWithin base depth entry.normalize {} = some t) ∧
      Follows P base (P.visit base entry {}).resolution t := by
  have hawaited : Awaited P {} entry.normalize :=
    ⟨⟨entry.isNormal_normalize, fun h => absurd h hl⟩, fun h => absurd h hl⟩
  have hwithin := P.visitWithin_depthBound base {} entry.normalize
  rw [visit_normalize] at hwithin
  obtain ⟨t, ht, hfollows, -⟩ := follows_visitWithin _ _ _ _ _ (follows_empty P base) hawaited hwithin
  rw [(P.visits_visit base entry {}).settle_of_scannable hl] at hfollows
  exact ⟨t, ht, hfollows⟩

/-! ## What is reported -/

variable {r : Resolution} {t : Traversal}

theorem Follows.dependencies (h : Follows P base r t) (entry dir : Path) :
    (r.report entry dir).dependencies = t.dependencies := by
  show (r.known.exclude r.unreadable).toList = _
  rw [Dependencies.toList_exclude]
  exact h.known.trans (by rw [← h.unreadable]; rfl)

theorem Follows.imports (h : Follows P base r t) (entry dir : Path) :
    (r.report entry dir).edges = t.imports := by
  have hboth (edges : List (Path × Path)) :
      (edges.filter fun e => ! r.unreadable.contains e.1 && ! r.unreadable.contains e.2) =
        (edges.filter fun e => ! r.unreadable.contains e.2).filter fun e => ! r.unreadable.contains e.1 := by
    rw [List.filter_filter]
  show (r.edges.toList.filter fun e => ! r.unreadable.contains e.1 && ! r.unreadable.contains e.2) = _
  rw [hboth, h.edges, ← hboth, ← h.unreadable]
  rfl

theorem Follows.unreadable_importer (h : Follows P base r t) {e : Path × Path} (he : e ∈ t.edges) :
    t.unreadable.contains e.1 = false := by
  obtain ⟨hn, hl⟩ := h.orderly.importer e he
  rw [h.unreadable, Bool.eq_false_iff]
  intro hc
  exact hl (h.wellFormed.failed e.1 ((h.wellFormed.contains_unreadable hn).mp hc))

theorem Follows.firsts (h : Follows P base r t) : t.dependencies = (t.imports.map Prod.snd).eraseDups := by
  have hreadable : t.imports = t.edges.filter fun e => ! t.unreadable.contains e.2 := by
    refine List.filter_congr fun e he => ?_
    show (! t.unreadable.contains e.1 && ! t.unreadable.contains e.2) = _
    rw [h.unreadable_importer he]
    rfl
  have hcongr (p q : Path) (he : (p == q) = true) :
      (! t.unreadable.contains p) = ! t.unreadable.contains q := by
    rw [contains_eq_of_beq _ _ _ he]
  have hmap : (t.imports.map Prod.snd) = (t.edges.map Prod.snd).filter (! t.unreadable.contains ·) := by
    rw [hreadable, List.filter_map]
    rfl
  rw [hmap, eraseDups_filter hcongr, ← h.orderly.firsts]
  rfl

end

/-- A walk from a file that can be scanned reports what the plain traversal keeps: what it listed and the
edges it met, in that order, but for what could not be read. -/
theorem walk_eq_traversal (P : Project) (entry : Path) (base? : Option Path) (base : Path)
    (hbase : P.baseOf entry base? = .ok base)
    (hentry : P.disk.importLines? P.chunk entry.normalize ≠ none) :
    ∃ report t, P.walk entry base? = .ok report ∧
      (∀ depth, P.depthBound base {} ≤ depth → P.traverseWithin base depth entry.normalize {} = some t) ∧
      report.dependencies = t.dependencies ∧ report.edges = t.imports ∧
      report.unreadable = t.unreadable.toList ∧
      report.dependencies = (report.edges.map Prod.snd).eraseDups := by
  obtain ⟨t, ht, hfollows⟩ := follows_visit base hentry
  have hdependencies := hfollows.dependencies entry.normalize base
  have himports := hfollows.imports entry.normalize base
  refine ⟨_, t, walk_of_baseOf hbase, ht, hdependencies, himports, ?_, ?_⟩
  · rw [hfollows.unreadable]
    rfl
  · rw [hdependencies, himports]
    exact hfollows.firsts

def brokenImport : Project :=
  let name (s : String) := Utf8.encode s.toList
  { disk := (Disk.empty.makeFile [name "Main.elm", name "src"] (name "import Gone\nimport Page\n")).makeFile
      [name "Page.elm", name "src"] (name "import Gone\nimport Main\n") }

theorem walk_of_brokenImport :
    let entry := Path.ofString "src/./Main.elm"
    let base := (Path.ofString "src").normalize
    brokenImport.baseOf entry (some (.ofString "src")) = .ok base ∧
      brokenImport.disk.importLines? brokenImport.chunk entry.normalize ≠ none ∧
      ∃ report t, brokenImport.walk entry (some (.ofString "src")) = .ok report ∧
        (∀ depth, brokenImport.depthBound base {} ≤ depth →
          brokenImport.traverseWithin base depth entry.normalize {} = some t) ∧
        report.dependencies = t.dependencies ∧ report.edges = t.imports ∧
        report.unreadable = t.unreadable.toList ∧
        report.dependencies = (report.edges.map Prod.snd).eraseDups := by
  have hread : brokenImport.disk.read (Path.ofString "src/./Main.elm").normalize =
      .ok (Utf8.encode "import Gone\nimport Page\n".toList) := rfl
  have hentry : brokenImport.disk.importLines? brokenImport.chunk (Path.ofString "src/./Main.elm").normalize ≠
      none := by
    rw [Disk.importLines?_of_read hread]
    exact Option.some_ne_none _
  exact ⟨rfl, hentry, walk_eq_traversal brokenImport _ _ _ rfl hentry⟩

end Project

end ElmImports
