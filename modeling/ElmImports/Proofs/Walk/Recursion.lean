import ElmImports.Proofs.Walk.Imports

/-!
# The recursion of visits

A visit ends in one of three ways: the file has been visited, it cannot be scanned, or its imports are
entered and its new sources visited in turn. What it gives is a relation with one rule for each, and none
of them takes back a visited or unreadable file, an edge, or the source roots of the base directory.
-/

namespace ElmImports

namespace Resolution

def mark (r : Resolution) (file : Path) : Resolution :=
  { r with visited := r.visited.insert file, scanned := r.scanned.push file }

def setAside (r : Resolution) (file : Path) : Resolution :=
  { r with unreadable := r.unreadable.insert file }

def leave (before after : Resolution) : Resolution :=
  if after.unreadable.size > before.unreadable.size then after.dropUnreadable else after

theorem visited_leave (before after : Resolution) : (before.leave after).visited = after.visited := by
  unfold leave
  split <;> rfl

end Resolution

namespace Visit

theorem visited_settle (v : Visit) : v.settle.visited = v.resolution.visited := by
  unfold settle
  cases v.status <;> rfl

theorem known_settle (v : Visit) : v.settle.known = v.resolution.known := by
  unfold settle
  cases v.status <;> rfl

end Visit

namespace Project

def sourcesIn (P : Project) (new : List Path) : List Path :=
  new.filter P.layout.isSourceFile

mutual

inductive Visits (P : Project) (base : Path) : Path → Resolution → Visit → Prop
  | seen {file r} : r.visited.contains file = true → Visits P base file r ⟨file, .resolved, r⟩
  | failed {file r} : r.visited.contains file = false → P.disk.importLines? P.chunk file = none →
      Visits P base file r ⟨file, .unreadable, r.mark file⟩
  | scanned {file r lines entered new after} : r.visited.contains file = false →
      P.disk.importLines? P.chunk file = some lines →
      Entered P base file (r.mark file) lines entered new → VisitsAll P base (P.sourcesIn new) entered after →
      Visits P base file r ⟨file, .resolved, r.leave after⟩

inductive VisitsAll (P : Project) (base : Path) : List Path → Resolution → Resolution → Prop
  | nil {r} : VisitsAll P base [] r r
  | cons {p ps r v after} : Visits P base p r v → VisitsAll P base ps v.settle after →
      VisitsAll P base (p :: ps) r after

end

/-! ## Visits follow the rules -/

section
variable (P : Project) (base : Path)

def visitAllWithin (depth : Nat) (files : List Path) (r : Resolution) : Option Resolution :=
  files.foldlM (fun r p => (P.visitWithin base depth p r).map Visit.settle) r

theorem visitWithin_succ (depth : Nat) (file : Path) (r : Resolution) :
    P.visitWithin base (depth + 1) file r =
      if r.visited.contains file.normalize then some ⟨file.normalize, .resolved, r⟩
      else match P.disk.importLines? P.chunk file.normalize with
        | none => some ⟨file.normalize, .unreadable, r.mark file.normalize⟩
        | some lines =>
          let entered := P.enterImports base file.normalize (r.mark file.normalize) lines
          (P.visitAllWithin base depth (P.sourcesIn entered.2.toList) entered.1).map fun after =>
            ⟨file.normalize, .resolved, r.leave after⟩ := by
  rw [visitWithin]
  dsimp only
  by_cases hv : r.visited.contains file.normalize = true
  · rw [if_pos hv, if_pos hv]
  · rw [if_neg hv, if_neg hv]
    cases P.disk.importLines? P.chunk file.normalize with
    | none => rfl
    | some lines =>
      dsimp only
      unfold visitAllWithin
      show Option.bind _ _ = _
      rw [Option.map_eq_bind]
      rfl

theorem visitAllWithin_cons (depth : Nat) (p : Path) (files : List Path) (r : Resolution) :
    P.visitAllWithin base depth (p :: files) r =
      (P.visitWithin base depth p r).bind fun v => P.visitAllWithin base depth files v.settle := by
  unfold visitAllWithin
  rw [List.foldlM_cons]
  cases P.visitWithin base depth p r <;> rfl

end

section
variable {P : Project} {base file : Path} {r r' : Resolution} {lines : List Text} {new : List Path}

theorem Entered.normal (h : Entered P base file r lines r' new) : ∀ p ∈ new, p.IsNormal :=
  fun p hp => isNormal_of_mem_targetsIn (List.mem_filter.mp (h.new_kept p hp)).1

theorem visitsAll_of_visitAllWithin {depth : Nat}
    (ih : ∀ file r v, P.visitWithin base depth file r = some v → Visits P base file.normalize r v) :
    ∀ files r after, (∀ p ∈ files, p.IsNormal) → P.visitAllWithin base depth files r = some after →
      VisitsAll P base files r after
  | [], _, _, _, h => by
    cases h
    exact .nil
  | p :: files, r, after, hn, h => by
    rw [visitAllWithin_cons] at h
    obtain ⟨v, hv, h⟩ := Option.bind_eq_some_iff.mp h
    obtain ⟨hp, hps⟩ := List.forall_mem_cons.mp hn
    -- the relation speaks of normal paths, and a child is one
    have hfirst := ih p r v hv
    rw [show p.normalize = p from hp] at hfirst
    exact .cons hfirst (visitsAll_of_visitAllWithin ih files _ after hps h)

theorem visits_of_visitWithin (depth : Nat) : ∀ file r v, P.visitWithin base depth file r = some v →
    Visits P base file.normalize r v := by
  induction depth with
  | zero => intro file r v h; cases h
  | succ depth ih =>
    intro file r v h
    rw [visitWithin_succ] at h
    cases hv : r.visited.contains file.normalize with
    | true =>
      rw [hv, if_pos rfl] at h
      cases h
      exact .seen hv
    | false =>
      rw [hv, if_neg Bool.false_ne_true] at h
      cases hl : P.disk.importLines? P.chunk file.normalize with
      | none =>
        rw [hl] at h
        cases h
        exact .failed hv hl
      | some lines =>
        rw [hl] at h
        obtain ⟨after, hafter, rfl⟩ := Option.map_eq_some_iff.mp h
        have hentered := entered_enterImports P base file.normalize (r.mark file.normalize) lines
        refine .scanned hv hl hentered (visitsAll_of_visitAllWithin ih _ _ _ ?_ hafter)
        exact fun p hp => hentered.normal p (List.mem_filter.mp hp).1

/-! ## What a visit never takes back -/

/-- Everything found is kept, except that a dependency may turn out to be unreadable. -/
structure Grows (P : Project) (base : Path) (r r' : Resolution) : Prop where
  visited : r.visited.toList ⊆ r'.visited.toList
  unreadable : r.unreadable.toList ⊆ r'.unreadable.toList
  size : r.unreadable.size ≤ r'.unreadable.size
  known : ∀ p ∈ r.known.toList, p ∈ r'.known.toList ∨ r'.unreadable.contains p = true
  edges : r.edges.toList <+: r'.edges.toList
  roots : r'.rootsOf P base = r.rootsOf P base

theorem Grows.refl (P : Project) (base : Path) (r : Resolution) : Grows P base r r :=
  ⟨List.Subset.refl _, List.Subset.refl _, Nat.le_refl _, fun _ h => .inl h, List.prefix_refl _, rfl⟩

theorem Grows.trans {r₁ r₂ r₃ : Resolution} (h₁ : Grows P base r₁ r₂) (h₂ : Grows P base r₂ r₃) :
    Grows P base r₁ r₃ where
  visited := List.Subset.trans h₁.visited h₂.visited
  unreadable := List.Subset.trans h₁.unreadable h₂.unreadable
  size := Nat.le_trans h₁.size h₂.size
  known := by
    intro p hp
    rcases h₁.known p hp with hp | hu
    · exact h₂.known p hp
    · exact .inr (contains_of_subset h₂.unreadable hu)
  edges := h₁.edges.trans h₂.edges
  roots := h₂.roots.trans h₁.roots

theorem grows_mark (P : Project) (base : Path) (r : Resolution) (file : Path) :
    Grows P base r (r.mark file) :=
  { Grows.refl P base r with
    visited := toList_subset_insert _ _
    roots := Resolution.rootsOf_congr (by rfl) P base }

theorem grows_setAside (P : Project) (base : Path) (r : Resolution) (file : Path) :
    Grows P base r (r.setAside file) :=
  { Grows.refl P base r with
    unreadable := toList_subset_insert _ _
    size := Std.TreeSet.size_le_size_insert
    known := fun _ h => .inl h
    roots := Resolution.rootsOf_congr (by rfl) P base }

theorem grows_dropUnreadable (P : Project) (base : Path) (r : Resolution) :
    Grows P base r r.dropUnreadable :=
  { Grows.refl P base r with
    known := by
      intro p hp
      cases hu : r.unreadable.contains p with
      | true => exact .inr hu
      | false =>
        refine .inl ?_
        show p ∈ (r.known.exclude r.unreadable).toList
        rw [Dependencies.toList_exclude]
        exact List.mem_filter.mpr ⟨hp, by rw [hu]; rfl⟩
    roots := Resolution.rootsOf_congr (by rfl) P base }

theorem grows_leave (P : Project) (base : Path) (before after : Resolution) :
    Grows P base after (before.leave after) := by
  unfold Resolution.leave
  split
  · exact grows_dropUnreadable P base after
  · exact .refl P base after

theorem Entered.grows (h : Entered P base file r lines r' new) : Grows P base r r' := by
  refine ⟨?_, ?_, ?_, ?_, ?_, h.roots⟩
  · rw [h.visited]; exact List.Subset.refl _
  · rw [h.unreadable]; exact List.Subset.refl _
  · exact Nat.le_of_eq (by rw [h.unreadable])
  · intro p hp
    rw [h.known]
    exact .inl (List.mem_append_left _ hp)
  · rw [h.edges]; exact List.prefix_append _ _

theorem grows_settle (P : Project) (base : Path) (v : Visit) : Grows P base v.resolution v.settle := by
  unfold Visit.settle
  cases v.status with
  | resolved => exact .refl P base _
  | unreadable => exact grows_setAside P base _ _

mutual

theorem Visits.grows {P : Project} {base file : Path} {r : Resolution} {v : Visit}
    (h : Visits P base file r v) :
    Grows P base r v.resolution := by
  match h with
  | .seen _ => exact .refl P base r
  | .failed _ _ => exact grows_mark P base r file
  | .scanned _ _ hentered hall =>
    exact (grows_mark P base r file).trans
      (hentered.grows.trans (hall.grows.trans (grows_leave P base r _)))

theorem VisitsAll.grows {P : Project} {base : Path} {files : List Path} {r after : Resolution}
    (h : VisitsAll P base files r after) : Grows P base r after := by
  match h with
  | .nil => exact .refl P base r
  | .cons (v := v) hfirst hrest => exact hfirst.grows.trans ((grows_settle P base v).trans hrest.grows)

end

theorem Visits.settle_grows {v : Visit} (h : Visits P base file r v) : Grows P base r v.settle :=
  h.grows.trans (grows_settle P base v)

end

end Project

end ElmImports
