import ElmImports.Path.Normal
import ElmImports.Proofs.Text.Pieces

/-!
# Normal paths are fixed

The steps a path is normalized to are kept last first. Kept steps are names, with the root or parent steps
below them, and such a list is read back from its spelling and followed again without a change. Normalizing
looks at components only, so that normal paths with equal components are equal.
-/

namespace ElmImports

namespace Component

/-- The component is read back from its spelling between slashes. -/
def IsStep (c : Component) : Prop :=
  ofPiece? c.spelling = some c ∧ Path.slash ∉ c.spelling

theorem isStep_parent : parent.IsStep := by
  unfold IsStep; decide

theorem spelling_of_ofPiece? {piece : Bytes} {c : Component} (h : ofPiece? piece = some c) :
    c.spelling = piece := by
  unfold ofPiece? at h
  split at h
  · cases h
  · cases h
  · cases h; rfl
  · cases h; rfl

theorem isStep_of_ofPiece? {piece : Bytes} {c : Component} (h : ofPiece? piece = some c)
    (hs : Path.slash ∉ piece) : c.IsStep := by
  have hp := spelling_of_ofPiece? h
  unfold IsStep
  rw [hp]
  exact ⟨h, hs⟩

theorem IsStep.ne_nil {c : Component} (h : c.IsStep) : c.spelling ≠ [] := by
  intro he
  have := h.1
  rw [he] at this
  cases this

theorem IsStep.ne_dot {c : Component} (h : c.IsStep) : c.spelling ≠ [Path.dot] := by
  intro he
  have := h.1
  rw [he] at this
  cases this

theorem not_isStep_root : ¬ root.IsStep := by
  unfold IsStep; decide

theorem not_isStep_current : ¬ current.IsStep := by
  unfold IsStep; decide

theorem filterMap_spelling {cs : List Component} (h : ∀ c ∈ cs, c.IsStep) :
    (cs.map spelling).filterMap ofPiece? = cs := by
  induction cs with
  | nil => rfl
  | cons c cs ih =>
    rw [List.map_cons, List.filterMap_cons, (h c (by simp)).1, ih fun d hd => h d (by simp [hd])]

end Component

namespace Path

/-! ## Reading joined steps back -/

theorem slash_not_mem_of_mem_splitOn {bytes piece : Bytes} (h : piece ∈ bytes.splitOn slash) :
    slash ∉ piece :=
  Pieces.sep_not_mem h

theorem splitOn_joined {cs : List Component} (h : ∀ c ∈ cs, c.IsStep) (hne : cs ≠ []) :
    ([slash].intercalate (cs.map Component.spelling)).splitOn slash = cs.map Component.spelling := by
  refine List.splitOn_intercalate slash ?_ (by simpa using hne)
  intro piece hp
  obtain ⟨c, hc, rfl⟩ := List.mem_map.mp hp
  exact (h c hc).2

theorem head?_joined {c : Component} {cs : List Component} (h : c.IsStep) :
    ([slash].intercalate ((c :: cs).map Component.spelling)).head? = c.spelling.head? := by
  obtain ⟨b, bs, hb⟩ := List.exists_cons_of_ne_nil h.ne_nil
  cases cs with
  | nil => simp
  | cons d cs => rw [List.map_cons, List.map_cons, List.intercalate_cons_cons, hb]; rfl

theorem components_joined {cs : List Component} (h : ∀ c ∈ cs, c.IsStep) (hne : cs ≠ []) :
    components ⟨[slash].intercalate (cs.map Component.spelling)⟩ = cs := by
  obtain ⟨c, rest, rfl⟩ := List.exists_cons_of_ne_nil hne
  have hc := h c (by simp)
  have habs : isAbsolute ⟨[slash].intercalate ((c :: rest).map Component.spelling)⟩ = false := by
    unfold isAbsolute
    rw [head?_joined hc, beq_eq_false_iff_ne]
    intro he
    exact hc.2 (List.mem_of_head? he)
  have hdot : isDotted ⟨[slash].intercalate ((c :: rest).map Component.spelling)⟩ = false := by
    unfold isDotted
    rw [splitOn_joined h hne, List.map_cons, List.head?_cons, beq_eq_false_iff_ne]
    intro he
    exact hc.ne_dot (Option.some.inj he)
  unfold components opening
  rw [habs, hdot, splitOn_joined h hne, Component.filterMap_spelling h]
  rfl

theorem components_rooted {cs : List Component} (h : ∀ c ∈ cs, c.IsStep) :
    components ⟨slash :: [slash].intercalate (cs.map Component.spelling)⟩ = .root :: cs := by
  have hpieces : (([slash].intercalate (cs.map Component.spelling)).splitOn slash).filterMap
      Component.ofPiece? = cs := by
    rcases List.eq_nil_or_concat cs with hn | ⟨_, _, hn⟩
    · subst hn; rfl
    · rw [splitOn_joined h (by simp [hn]), Component.filterMap_spelling h]
  unfold components opening isAbsolute
  rw [List.splitOn_cons_eq_if_modifyHead, List.head?_cons]
  simp only [BEq.rfl, if_true, List.filterMap_cons, Component.ofPiece?, hpieces, List.singleton_append]

/-! ## Kept steps -/

/-- What following a path can keep, the last step first. -/
def Kept : List Component → Prop
  | [] => True
  | .name bytes :: rest => (Component.name bytes).IsStep ∧ Kept rest
  | .parent :: rest => ∀ c ∈ rest, c = .parent
  | .root :: rest => rest = []
  | .current :: _ => False

theorem kept_of_parents : ∀ {cs : List Component}, (∀ c ∈ cs, c = .parent) → Kept cs
  | [], _ => trivial
  | c :: cs, h => by
    obtain rfl := h c (by simp)
    exact fun d hd => h d (by simp [hd])

theorem kept_follow {kept : List Component} {c : Component} (h : Kept kept) (hc : c.IsStep) :
    Kept (follow kept c) := by
  cases c with
  | root => exact absurd hc Component.not_isStep_root
  | current => exact absurd hc Component.not_isStep_current
  | name bytes => exact ⟨hc, h⟩
  | parent =>
    cases kept with
    | nil => intro c hc; cases hc
    | cons d rest =>
      cases d with
      | name bytes => exact h.2
      | root => exact h
      | current => exact h.elim
      | parent =>
        intro c hc
        rcases List.mem_cons.mp hc with rfl | hc
        · rfl
        · exact h c hc

theorem kept_foldl {cs : List Component} (hcs : ∀ c ∈ cs, c.IsStep) :
    ∀ {kept : List Component}, Kept kept → Kept (cs.foldl follow kept) := by
  induction cs with
  | nil => intro kept h; exact h
  | cons c cs ih =>
    intro kept h
    exact ih (fun d hd => hcs d (by simp [hd])) (kept_follow h (hcs c (by simp)))

theorem isStep_of_mem_pieces {bytes : Bytes} {c : Component}
    (h : c ∈ (bytes.splitOn slash).filterMap Component.ofPiece?) : c.IsStep := by
  obtain ⟨piece, hp, hc⟩ := List.mem_filterMap.mp h
  exact Component.isStep_of_ofPiece? hc (slash_not_mem_of_mem_splitOn hp)

def steps (p : Path) : List Component :=
  p.components.foldl follow []

theorem kept_steps (p : Path) : Kept p.steps := by
  have hopen : Kept (p.opening.foldl follow []) := by
    unfold opening
    split
    · rfl
    · split
      · trivial
      · trivial
  unfold steps components
  rw [List.foldl_append]
  exact kept_foldl (fun c hc => isStep_of_mem_pieces hc) hopen

theorem foldl_follow_reverse : ∀ {kept : List Component}, Kept kept → kept.reverse.foldl follow [] = kept
  | [], _ => rfl
  | c :: rest, h => by
    rw [List.reverse_cons, List.foldl_append, List.foldl_cons, List.foldl_nil]
    cases c with
    | name bytes => rw [foldl_follow_reverse h.2]; rfl
    | root => obtain rfl := h; rfl
    | current => exact h.elim
    | parent =>
      rw [foldl_follow_reverse (kept_of_parents h)]
      cases rest with
      | nil => rfl
      | cons d rest => obtain rfl := h d (by simp); rfl

theorem kept_reverse_shape : ∀ {kept : List Component}, Kept kept →
    (∀ c ∈ kept.reverse, c.IsStep) ∨ ∃ cs, kept.reverse = .root :: cs ∧ ∀ c ∈ cs, c.IsStep
  | [], _ => Or.inl (by simp)
  | c :: rest, h => by
    rw [List.reverse_cons]
    cases c with
    | root => obtain rfl := h; exact Or.inr ⟨[], rfl, by simp⟩
    | current => exact h.elim
    | parent =>
      refine Or.inl fun c hc => ?_
      have : c = .parent := by
        rcases List.mem_append.mp hc with hc | hc
        · exact h c (List.mem_reverse.mp hc)
        · exact List.mem_singleton.mp hc
      rw [this]; exact Component.isStep_parent
    | name bytes =>
      have snoc : ∀ {cs : List Component}, (∀ c ∈ cs, c.IsStep) → ∀ c ∈ cs ++ [.name bytes], c.IsStep := by
        intro cs hcs c hc
        rcases List.mem_append.mp hc with hc | hc
        · exact hcs c hc
        · rw [List.mem_singleton.mp hc]; exact h.1
      rcases kept_reverse_shape h.2 with hs | ⟨cs, he, hs⟩
      · exact Or.inl (snoc hs)
      · exact Or.inr ⟨cs ++ [.name bytes], by rw [he]; rfl, snoc hs⟩

theorem components_ofComponents {kept : List Component} (h : Kept kept) (hne : kept ≠ []) :
    (ofComponents kept.reverse).components = kept.reverse := by
  rcases kept_reverse_shape h with hs | ⟨cs, he, hs⟩
  · have hne' : kept.reverse ≠ [] := by simpa using hne
    obtain ⟨c, rest, he⟩ := List.exists_cons_of_ne_nil hne'
    have hc : c ≠ .root := by
      rintro rfl
      exact Component.not_isStep_root (hs _ (by rw [he]; simp))
    have : ofComponents kept.reverse = ⟨[slash].intercalate (kept.reverse.map Component.spelling)⟩ := by
      rw [he]
      unfold ofComponents
      split
      · rename_i heq; cases heq; exact absurd rfl hc
      · rfl
    rw [this, components_joined hs hne']
  · rw [he]
    exact components_rooted hs

/-! ## Normal paths -/

theorem normalize_eq_of_steps_eq {p q : Path} (h : p.steps = q.steps) : p.normalize = q.normalize := by
  unfold steps at h
  unfold normalize
  rw [h]

theorem normalize_eq_of_components_eq {p q : Path} (h : p.components = q.components) :
    p.normalize = q.normalize :=
  normalize_eq_of_steps_eq (congrArg (List.foldl follow []) h)

theorem components_normalize (p : Path) :
    p.normalize.components = if p.steps = [] then [.current] else p.steps.reverse := by
  by_cases hs : p.steps = []
  · have : p.normalize = ⟨[dot]⟩ := by
      unfold normalize
      rw [show p.components.foldl follow [] = [] from hs]
      rfl
    rw [this, if_pos hs]
    rfl
  · have : p.normalize = ofComponents p.steps.reverse := by
      unfold normalize
      split
      · rename_i he; exact absurd (List.reverse_eq_nil_iff.mp he) hs
      · rfl
    rw [this, if_neg hs, components_ofComponents (kept_steps p) hs]

theorem steps_normalize (p : Path) : p.normalize.steps = p.steps := by
  rw [show p.normalize.steps = p.normalize.components.foldl follow [] from rfl, components_normalize]
  by_cases hs : p.steps = []
  · rw [if_pos hs, hs]; rfl
  · rw [if_neg hs, foldl_follow_reverse (kept_steps p)]

@[simp] theorem normalize_normalize (p : Path) : p.normalize.normalize = p.normalize :=
  normalize_eq_of_steps_eq (steps_normalize p)

def IsNormal (p : Path) : Prop :=
  p.normalize = p

theorem isNormal_normalize (p : Path) : p.normalize.IsNormal :=
  normalize_normalize p

theorem IsNormal.eq_of_components_eq {p q : Path} (hp : p.IsNormal) (hq : q.IsNormal)
    (h : p.components = q.components) : p = q := by
  rw [← hp, ← hq]
  exact normalize_eq_of_components_eq h

theorem IsNormal.eq_of_beq {p q : Path} (hp : p.IsNormal) (hq : q.IsNormal) (h : (p == q) = true) : p = q :=
  hp.eq_of_components_eq hq (beq_iff.mp h)

theorem map_bytes_inj : ∀ {ps qs : List Path}, ps.map Path.bytes = qs.map Path.bytes → ps = qs
  | [], [], _ => rfl
  | p :: ps, q :: qs, h => by
    obtain ⟨hp, hps⟩ := List.cons.inj h
    cases p; cases q; cases hp
    rw [map_bytes_inj hps]

end Path

end ElmImports
