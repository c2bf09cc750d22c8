import ElmImports.Proofs.Path.Absolute

/-!
# Where a path leads

A path leads up from the working directory, or to the root, and from there down by names. Normalizing does not
change where it leads. Two normal paths lead to one place if they are equal, or if one of them starts farther out
and comes down by the very directories that lie between the two starts: since the working directory is not looked
at, such a detour is not cut short.
-/

namespace ElmImports

def Component.name? : Component → Option Bytes
  | .name bytes => some bytes
  | _ => none

namespace Path

/-- The names that a path goes down by when it is normalized, the innermost first. -/
def descent (p : Path) : Place :=
  p.steps.filterMap Component.name?

/-- How far up a path goes when it is normalized. -/
def climb (p : Path) : Nat :=
  p.steps.count .parent

def origin (p : Path) (cwd : Place) : Place :=
  if p.isAbsolute then [] else cwd.drop p.climb

/-- Coming down from where it starts, `p` passes the place where `q` starts, and goes on as `q` does. -/
def Detours (p : Path) (cwd : Place) (q : Path) : Prop :=
  ∃ between, q.origin cwd = between ++ p.origin cwd ∧ p.descent = q.descent ++ between

end Path

/-! ## Kept steps -/

namespace Component

def leadTo (cwd : Place) (kept : List Component) : Place :=
  kept.filterMap name? ++ if .root ∈ kept then [] else cwd.drop (kept.count .parent)

theorem leadTo_name (cwd : Place) (bytes : Bytes) (kept : List Component) :
    leadTo cwd (name bytes :: kept) = bytes :: leadTo cwd kept := by
  simp [leadTo, name?]

theorem leadTo_parents (cwd : Place) {kept : List Component} (h : ∀ c ∈ kept, c = parent) :
    leadTo cwd kept = cwd.drop kept.length := by
  rw [List.eq_replicate_iff.mpr ⟨rfl, h⟩]
  simp [leadTo, name?]

end Component

namespace Place

open Component (leadTo leadTo_name leadTo_parents)

def follow (here : Place) : Component → Place
  | .root => []
  | .current => here
  | .parent => here.tail
  | .name bytes => bytes :: here

theorem along_eq_foldl (cwd : Place) (p : Path) : cwd.along p = p.components.foldl follow cwd :=
  rfl

theorem follow_leadTo (cwd : Place) {kept : List Component} {c : Component} (hkept : Path.Kept kept)
    (hc : c.IsStep) : follow (leadTo cwd kept) c = leadTo cwd (Path.follow kept c) := by
  cases c with
  | root => exact absurd hc Component.not_isStep_root
  | current => exact absurd hc Component.not_isStep_current
  | name bytes => exact (leadTo_name cwd bytes kept).symm
  | parent =>
    match kept, hkept with
    | [], _ => simp [leadTo, follow, Path.follow, Component.name?]
    | .name bytes :: rest, _ =>
      rw [leadTo_name]
      rfl
    | .root :: _, h =>
      obtain rfl := h
      rfl
    | .parent :: rest, h =>
      have hall : ∀ c ∈ Component.parent :: rest, c = .parent := List.forall_mem_cons.mpr ⟨rfl, h⟩
      show (leadTo cwd (.parent :: rest)).tail = leadTo cwd (.parent :: .parent :: rest)
      rw [leadTo_parents cwd hall, leadTo_parents cwd (List.forall_mem_cons.mpr ⟨rfl, hall⟩), List.tail_drop]
      rfl

theorem foldl_follow_leadTo (cwd : Place) : ∀ {cs kept : List Component}, (∀ c ∈ cs, c.IsStep) → Path.Kept kept →
    cs.foldl follow (leadTo cwd kept) = leadTo cwd (cs.foldl Path.follow kept)
  | [], _, _, _ => rfl
  | c :: cs, kept, hcs, hkept => by
    obtain ⟨hc, hcs⟩ := List.forall_mem_cons.mp hcs
    rw [List.foldl_cons, List.foldl_cons, follow_leadTo cwd hkept hc]
    exact foldl_follow_leadTo cwd hcs (Path.kept_follow hkept hc)

theorem along_eq_leadTo (cwd : Place) (p : Path) : cwd.along p = leadTo cwd p.steps := by
  have hopening : p.opening.foldl follow cwd = leadTo cwd (p.opening.foldl Path.follow []) ∧
      Path.Kept (p.opening.foldl Path.follow []) := by
    unfold Path.opening
    split
    · exact ⟨rfl, rfl⟩
    · split <;> exact ⟨by simp [leadTo, follow, Path.follow], trivial⟩
  rw [along_eq_foldl]
  unfold Path.steps Path.components
  rw [List.foldl_append, List.foldl_append, hopening.1]
  exact foldl_follow_leadTo cwd (fun c hc => Path.isStep_of_mem_pieces hc) hopening.2

theorem along_normalize (cwd : Place) (p : Path) : cwd.along p.normalize = cwd.along p := by
  rw [along_eq_leadTo, along_eq_leadTo, p.steps_normalize]

end Place

namespace Path

/-! ## Detours -/

theorem along_eq (p : Path) (cwd : Place) : cwd.along p = p.descent ++ p.origin cwd := by
  rw [Place.along_eq_leadTo]
  unfold Component.leadTo descent origin climb
  simp only [isAbsolute_iff_root_mem_steps]

theorem origin_suffix (p : Path) (cwd : Place) : p.origin cwd <:+ cwd := by
  unfold origin
  split
  · exact List.nil_suffix
  · exact List.drop_suffix _ _

theorem Detours.along_eq {p q : Path} {cwd : Place} (h : p.Detours cwd q) : cwd.along p = cwd.along q := by
  obtain ⟨between, horigin, hdescent⟩ := h
  rw [p.along_eq, q.along_eq, horigin, hdescent, List.append_assoc]

theorem detours_of_suffix {p q : Path} {cwd : Place} (hs : p.origin cwd <:+ q.origin cwd)
    (h : cwd.along p = cwd.along q) : p.Detours cwd q := by
  obtain ⟨between, hbetween⟩ := hs
  refine ⟨between, hbetween.symm, ?_⟩
  rw [p.along_eq, q.along_eq, ← hbetween, ← List.append_assoc] at h
  exact List.append_cancel_right h

theorem along_eq_iff {p q : Path} {cwd : Place} :
    cwd.along p = cwd.along q ↔ p.Detours cwd q ∨ q.Detours cwd p := by
  constructor
  · intro h
    -- both start at or above the working directory, one of them no farther in than the other
    rcases List.suffix_or_suffix_of_suffix (p.origin_suffix cwd) (q.origin_suffix cwd) with hs | hs
    · exact .inl (detours_of_suffix hs h)
    · exact .inr (detours_of_suffix hs h.symm)
  · rintro (h | h)
    · exact h.along_eq
    · exact h.along_eq.symm

/-! ## Paths that begin alike -/

theorem kept_eq : ∀ {kept : List Component}, Kept kept → kept = (kept.filterMap Component.name?).map .name ++
    if .root ∈ kept then [.root] else List.replicate (kept.count .parent) .parent
  | [], _ => rfl
  | c :: rest, h => by
    cases c with
    | name bytes =>
      have ih := kept_eq h.2
      simpa [Component.name?] using ih
    | parent =>
      rw [List.eq_replicate_iff.mpr ⟨rfl, h⟩]
      simp [Component.name?, List.replicate_succ]
    | root => obtain rfl := h; rfl
    | current => exact h.elim

theorem climb_of_isAbsolute {p : Path} (h : p.isAbsolute = true) : p.climb = 0 := by
  unfold climb
  rw [kept_eq p.kept_steps, if_pos (isAbsolute_iff_root_mem_steps.mp h)]
  refine List.count_eq_zero.mpr fun hm => ?_
  simp at hm

/-- Both start at the root, or equally far above the working directory. -/
def BeginsLike (p q : Path) : Prop :=
  p.isAbsolute = q.isAbsolute ∧ p.climb = q.climb

section
variable {p q r : Path}

theorem BeginsLike.symm (h : p.BeginsLike q) : q.BeginsLike p :=
  ⟨h.1.symm, h.2.symm⟩

theorem BeginsLike.trans (h : p.BeginsLike q) (h' : q.BeginsLike r) : p.BeginsLike r :=
  ⟨h.1.trans h'.1, h.2.trans h'.2⟩

theorem beginsLike_of_isAbsolute (hp : p.isAbsolute = true) (hq : q.isAbsolute = true) : p.BeginsLike q :=
  ⟨hp.trans hq.symm, (climb_of_isAbsolute hp).trans (climb_of_isAbsolute hq).symm⟩

theorem beginsLike_of_steps (names : List Bytes) (h : p.steps = names.map .name ++ q.steps) : p.BeginsLike q := by
  have hnames : (names.map Component.name).count .parent = 0 := List.count_eq_zero.mpr (by simp)
  constructor
  · rw [Bool.eq_iff_iff, isAbsolute_iff_root_mem_steps, isAbsolute_iff_root_mem_steps, h]
    simp
  · unfold climb
    rw [h, List.count_append, hnames, Nat.zero_add]

theorem beginsLike_normalize (p : Path) : p.normalize.BeginsLike p :=
  beginsLike_of_steps [] p.steps_normalize

theorem IsNormal.eq_of_descent_eq (hp : p.IsNormal) (hq : q.IsNormal) (hbegin : p.BeginsLike q)
    (hdescent : p.descent = q.descent) : p = q := by
  obtain ⟨habsolute, hclimb⟩ := hbegin
  have hroot : .root ∈ p.steps ↔ .root ∈ q.steps := by
    rw [← isAbsolute_iff_root_mem_steps, ← isAbsolute_iff_root_mem_steps, habsolute]
  have hsteps : p.steps = q.steps := by
    rw [kept_eq p.kept_steps, kept_eq q.kept_steps]
    unfold descent climb at *
    simp only [hroot, hclimb, hdescent]
  rw [← hp, ← hq]
  exact normalize_eq_of_steps_eq hsteps

theorem IsNormal.eq_of_along_eq (hp : p.IsNormal) (hq : q.IsNormal) (hbegin : p.BeginsLike q) {cwd : Place}
    (h : cwd.along p = cwd.along q) : p = q := by
  have horigin : p.origin cwd = q.origin cwd := by
    unfold origin
    rw [hbegin.1, hbegin.2]
  rw [p.along_eq, q.along_eq, horigin] at h
  exact hp.eq_of_descent_eq hq hbegin (List.append_cancel_right h)

end

end Path

end ElmImports
