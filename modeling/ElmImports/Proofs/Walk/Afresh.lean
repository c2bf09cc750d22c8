import ElmImports.Proofs.Walk.Cache
import ElmImports.Proofs.Walk.Sequence

/-!
# A walker that remembers no source roots

The recursion of a visit is the same whichever way an import finds its file. With the source roots asked for afresh at
every import it gives what the walker that remembers them gives, apart from what is remembered.
-/

namespace ElmImports

def Resolution.forget (r : Resolution) : Resolution :=
  { r with roots := ∅, asked := #[] }

def Visit.forget (v : Visit) : Visit :=
  { v with resolution := v.resolution.forget }

namespace Project

/-! ## Visits by any way of finding files -/

section
variable (find : ModuleName → Resolution → Path × Resolution)

def enterVia (file : Path) (r : Resolution) (new : Array Path) (line : Text) : Resolution × Array Path :=
  match ModuleName.ofImportLine? line with
  | none => (r, new)
  | some m =>
    let (target, r) := find m r
    if r.unreadable.contains target then (r, new)
    else
      let r := { r with edges := r.edges.push (file, target) }
      match r.known.insert? target with
      | some known => ({ r with known }, new.push target)
      | none => (r, new)

def enterAllVia (file : Path) (r : Resolution) (lines : List Text) : Resolution × Array Path :=
  lines.foldl (fun (r, new) line => enterVia find file r new line) (r, #[])

/-- The recursion of a visit, where `find` finds the file of an import and says what is known then. -/
def visitVia (P : Project) : Nat → Path → Resolution → Option Visit
  | 0, _, _ => none
  | depth + 1, file, r =>
    let file := file.normalize
    if r.visited.contains file then some ⟨file, .resolved, r⟩
    else match P.disk.importLines? P.chunk file with
      | none => some ⟨file, .unreadable, r.mark file⟩
      | some lines =>
        let entered := enterAllVia find file (r.mark file) lines
        let after := (P.sourcesIn entered.2.toList).foldlM
          (fun r p => (visitVia P depth p r).map Visit.settle) entered.1
        after.map fun after => ⟨file, .resolved, r.leave after⟩

end

theorem visitVia_target (P : Project) (base : Path) (depth : Nat) :
    visitVia (P.target base) P depth = P.visitWithin base depth := by
  induction depth with
  | zero => rfl
  | succ depth ih =>
    funext file r
    rw [visitWithin_succ, visitVia]
    unfold visitAllWithin
    rw [ih]
    rfl

/-! ## Asking afresh -/

def targetAfresh (P : Project) (base : Path) (m : ModuleName) (r : Resolution) : Path × Resolution :=
  (P.targetIn base (P.sourceRoots P.disk base) m, r)

def visitAfresh (P : Project) (base file : Path) (r : Resolution) : Visit :=
  (visitVia (P.targetAfresh base) P (P.depthBound base r) file r).getD ⟨file.normalize, .resolved, r⟩

def afterVisitsAfresh (P : Project) (calls : List (Path × Path)) (r : Resolution) : Resolution :=
  calls.foldl (fun r (base, file) => (P.visitAfresh base file r).resolution) r

section
variable {P : Project} {base : Path} {r : Resolution}

theorem settle_forget (v : Visit) : v.forget.settle = v.settle.forget := by
  unfold Visit.settle
  cases hv : v.status with
  | resolved => simp [Visit.forget, hv]
  | unreadable => simp [Visit.forget, hv, Resolution.forget]

theorem leave_forget (before after : Resolution) : before.forget.leave after.forget = (before.leave after).forget := by
  unfold Resolution.leave Resolution.forget
  dsimp only
  split <;> rfl

theorem enterVia_forget (h : Cached P r) (hbase : base.IsNormal) (file : Path) (new : Array Path) (line : Text) :
    enterVia (P.targetAfresh base) file r.forget new line =
      ((P.enterImport base file r new line).1.forget, (P.enterImport base file r new line).2) := by
  unfold enterVia enterImport
  cases ModuleName.ofImportLine? line with
  | none => rfl
  | some m =>
    obtain ⟨roots, asked, ht, -⟩ := P.target_eq base m r
    dsimp only
    rw [ht, h.rootsOf hbase]
    unfold targetAfresh Resolution.forget
    dsimp only
    generalize P.targetIn base (P.sourceRoots P.disk base) m = target
    cases r.unreadable.contains target with
    | true => rfl
    | false => cases r.known.insert? target <;> rfl

theorem enterAllVia_forget (hbase : base.IsNormal) (file : Path) (lines : List Text) (h : Cached P r) :
    enterAllVia (P.targetAfresh base) file r.forget lines =
      ((P.enterImports base file r lines).1.forget, (P.enterImports base file r lines).2) := by
  unfold enterAllVia enterImports
  generalize #[] = new
  induction lines generalizing r new with
  | nil => rfl
  | cons line lines ih =>
    rw [List.foldl_cons, List.foldl_cons]
    dsimp only
    rw [enterVia_forget h hbase]
    exact ih (h.learns hbase (P.learns_enterImport base file r new line).1) _

theorem visitAllVia_forget (hbase : base.IsNormal) {depth : Nat}
    (ih : ∀ file r, Cached P r →
      visitVia (P.targetAfresh base) P depth file r.forget = (P.visitWithin base depth file r).map Visit.forget) :
    ∀ files r, Cached P r →
      files.foldlM (fun r p => (visitVia (P.targetAfresh base) P depth p r).map Visit.settle) r.forget =
        (P.visitAllWithin base depth files r).map Resolution.forget
  | [], _, _ => rfl
  | p :: files, r, h => by
    rw [visitAllWithin_cons, List.foldlM_cons, ih p r h]
    cases hv : P.visitWithin base depth p r with
    | none => rfl
    | some v =>
      have hcached := (stepwise_cached P hbase).settle ((stepwise_cached P hbase).visitWithin depth p r v hv h)
      have hrest := visitAllVia_forget hbase ih files v.settle hcached
      rw [← settle_forget] at hrest
      exact hrest

theorem visitVia_forget (hbase : base.IsNormal) (depth : Nat) : ∀ file r, Cached P r →
    visitVia (P.targetAfresh base) P depth file r.forget = (P.visitWithin base depth file r).map Visit.forget := by
  induction depth with
  | zero => intro file r _; rfl
  | succ depth ih =>
    intro file r h
    rw [visitWithin_succ, visitVia]
    dsimp only
    by_cases hv : r.visited.contains file.normalize = true
    · rw [if_pos hv, if_pos (by exact hv)]
      rfl
    · rw [if_neg hv, if_neg (by exact hv)]
      cases hl : P.disk.importLines? P.chunk file.normalize with
      | none => rfl
      | some lines =>
        have hmark := h.mark file.normalize
        have hentered := enterAllVia_forget hbase file.normalize lines hmark
        have hall := visitAllVia_forget hbase ih
          (P.sourcesIn (P.enterImports base file.normalize (r.mark file.normalize) lines).2.toList) _
          (hmark.enterImports hbase file.normalize lines)
        have hmarked : r.forget.mark file.normalize = (r.mark file.normalize).forget := rfl
        dsimp only
        rw [hmarked, hentered, hall]
        cases P.visitAllWithin base depth _ _ with
        | none => rfl
        | some after =>
          rw [Option.map_some, Option.map_some, leave_forget]
          rfl

/-! ## The same findings -/

theorem depthBound_forget (h : Cached P r) (hbase : base.IsNormal) :
    P.depthBound base r.forget = P.depthBound base r := by
  have hroots := h.rootsOf hbase
  unfold Resolution.rootsOf at hroots
  unfold depthBound
  rw [hroots]
  rfl

theorem visitVia_targetAfresh (h : Cached P r) (hbase : base.IsNormal) (file : Path) :
    visitVia (P.targetAfresh base) P (P.depthBound base r.forget) file r.forget =
      some (P.visit base file r).forget := by
  rw [depthBound_forget h hbase, visitVia_forget hbase _ _ _ h, visitWithin_depthBound]
  rfl

theorem visitAfresh_forget (h : Cached P r) (hbase : base.IsNormal) (file : Path) :
    P.visitAfresh base file r.forget = (P.visit base file r).forget := by
  unfold visitAfresh
  rw [visitVia_targetAfresh h hbase]
  rfl

theorem Cached.visit (h : Cached P r) (hbase : base.IsNormal) (file : Path) :
    Cached P (P.visit base file r).resolution :=
  (stepwise_cached P hbase).visit h file

theorem Cached.afterVisits : ∀ (calls : List (Path × Path)) {r : Resolution}, Cached P r →
    (∀ call ∈ calls, call.1.IsNormal) → Cached P (P.afterVisits calls r)
  | [], _, h, _ => h
  | (base, file) :: calls, r, h, hcalls => by
    obtain ⟨hbase, hcalls⟩ := List.forall_mem_cons.mp hcalls
    exact Cached.afterVisits calls (h.visit hbase file) hcalls

theorem afterVisitsAfresh_forget : ∀ (calls : List (Path × Path)) {r : Resolution}, Cached P r →
    (∀ call ∈ calls, call.1.IsNormal) → P.afterVisitsAfresh calls r.forget = (P.afterVisits calls r).forget
  | [], _, _, _ => rfl
  | (base, file) :: calls, r, h, hcalls => by
    obtain ⟨hbase, hcalls⟩ := List.forall_mem_cons.mp hcalls
    unfold afterVisitsAfresh afterVisits
    rw [List.foldl_cons, List.foldl_cons]
    dsimp only
    rw [visitAfresh_forget h hbase]
    exact afterVisitsAfresh_forget calls (h.visit hbase file) hcalls

end

end Project

end ElmImports
