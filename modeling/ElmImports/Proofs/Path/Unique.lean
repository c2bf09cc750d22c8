import ElmImports.Proofs.Path.Place

/-!
# Normal forms are unique

Paths have one normal form just if both are absolute or both relative and they lead to the same directory from
wherever one starts. That normalizing does not change where a path leads is known; conversely, normal paths that
climb differently far are told apart by two starts of one depth, all of whose names are the one or the other. As a
joined path leads on from where its first part leads, its normal form is also that of its parts' normal forms joined.
-/

namespace ElmImports

def Place.IsProper (place : Place) : Prop :=
  ∀ name ∈ place, (Component.name name).IsStep

theorem Place.isProper_replicate {name : Bytes} (h : (Component.name name).IsStep) (n : Nat) :
    IsProper (List.replicate n name) := by
  intro other hother
  rw [List.eq_of_mem_replicate hother]
  exact h

namespace Path

/-- Both are absolute or both relative, and from every directory they lead to the same one. -/
def LeadsLike (p q : Path) : Prop :=
  p.isAbsolute = q.isAbsolute ∧ ∀ start : Place, start.IsProper → start.along p = start.along q

section
variable {p q : Path}

theorem LeadsLike.symm (h : p.LeadsLike q) : q.LeadsLike p :=
  ⟨h.1.symm, fun start hstart => (h.2 start hstart).symm⟩

theorem leadsLike_of_normalize_eq (h : p.normalize = q.normalize) : p.LeadsLike q := by
  refine ⟨?_, fun start _ => ?_⟩
  · rw [← isAbsolute_normalize, h, isAbsolute_normalize]
  · rw [← Place.along_normalize, h, Place.along_normalize]

/-! ## Normal paths told apart -/

theorem origin_of_relative (h : p.isAbsolute = false) (cwd : Place) : p.origin cwd = cwd.drop p.climb := by
  unfold origin
  rw [if_neg (by simp [h])]

theorem LeadsLike.climb_le (h : p.LeadsLike q) (hp : p.isAbsolute = false) : q.climb ≤ p.climb := by
  have hq : q.isAbsolute = false := h.1 ▸ hp
  by_contra hlt
  -- from a start that `q` leaves altogether, `q` has to come down by names of the start
  have hdescent {name : Bytes} (hname : (Component.name name).IsStep) :
      q.descent = p.descent ++ List.replicate (q.climb - p.climb) name := by
    have hsame := h.2 _ (Place.isProper_replicate hname q.climb)
    rw [p.along_eq, q.along_eq, origin_of_relative hp, origin_of_relative hq, List.drop_replicate,
      List.drop_replicate, Nat.sub_self, List.replicate_zero, List.append_nil] at hsame
    exact hsame.symm
  have ha : (Component.name [0x61]).IsStep := by unfold Component.IsStep; decide
  have hb : (Component.name [0x62]).IsStep := by unfold Component.IsStep; decide
  have hnames := List.append_cancel_left ((hdescent ha).symm.trans (hdescent hb))
  rcases (List.replicate_inj.mp hnames).2 with hzero | hname
  · exact hlt (Nat.le_of_sub_eq_zero hzero)
  · cases hname

theorem LeadsLike.climb_eq (h : p.LeadsLike q) : p.climb = q.climb := by
  cases hp : p.isAbsolute with
  | true => rw [climb_of_isAbsolute hp, climb_of_isAbsolute (h.1 ▸ hp)]
  | false => exact Nat.le_antisymm (h.symm.climb_le (h.1 ▸ hp)) (h.climb_le hp)

theorem LeadsLike.normalize_eq (h : p.LeadsLike q) : p.normalize = q.normalize := by
  have hbegin : p.normalize.BeginsLike q.normalize :=
    (p.beginsLike_normalize.trans ⟨h.1, h.climb_eq⟩).trans q.beginsLike_normalize.symm
  have hroot : Place.along [] p.normalize = Place.along [] q.normalize := by
    rw [Place.along_normalize, Place.along_normalize]
    exact h.2 [] nofun
  exact p.isNormal_normalize.eq_of_along_eq q.isNormal_normalize hbegin hroot

/-! ## The shape of a normal path -/

theorem normalize_of_current_mem (h : .current ∈ p.normalize.components) : p.normalize = ⟨[dot]⟩ := by
  have hkept : .current ∉ p.steps := fun hm => by
    rw [kept_eq p.kept_steps] at hm
    split at hm <;> simp at hm
  rw [components_normalize] at h
  split at h
  · rename_i hnil
    unfold normalize
    rw [show p.components.foldl follow [] = [] from hnil]
    rfl
  · exact absurd (List.mem_reverse.mp h) hkept

theorem parents_of_kept : ∀ {after before : List Component}, Kept (after ++ .parent :: before) →
    ∀ c ∈ before, c = .parent
  | [], _, h => h
  | .name _ :: _, _, h => parents_of_kept h.2
  | .parent :: _, _, h => fun c hc => h c (List.mem_append_right _ (List.mem_cons_of_mem _ hc))
  | .root :: _, _, h => absurd h (List.append_ne_nil_of_right_ne_nil _ (List.cons_ne_nil _ _))
  | .current :: _, _, h => h.elim

theorem root_not_mem_of_parent_mem {kept : List Component} (h : Kept kept) (hparent : .parent ∈ kept) :
    .root ∉ kept := by
  intro hroot
  rw [kept_eq h, if_pos hroot] at hparent
  simp at hparent

theorem parents_lead {before after : List Component} (h : p.normalize.components = before ++ .parent :: after) :
    p.normalize.isAbsolute = false ∧ ∀ c ∈ before, c = .parent := by
  rw [components_normalize] at h
  split at h
  · cases before <;> simp at h
  · have hsteps : p.steps = after.reverse ++ .parent :: before.reverse := by
      rw [← p.steps.reverse_reverse, h]
      simp
    have hroot := root_not_mem_of_parent_mem p.kept_steps (by simp [hsteps])
    have hbefore : ∀ c ∈ before.reverse, c = .parent := parents_of_kept (hsteps ▸ p.kept_steps)
    refine ⟨?_, fun c hc => hbefore c (List.mem_reverse.mpr hc)⟩
    rwa [isAbsolute_normalize, Bool.eq_false_iff, ne_eq, isAbsolute_iff_root_mem_steps]

/-! ## Joined paths -/

theorem along_of_relative (hq : q.isAbsolute = false) (start : Place) :
    start.along q = (named q.bytes).foldl Place.follow start := by
  rw [Place.along_eq_foldl, components_eq, List.foldl_append]
  rcases opening_of_relative hq with ho | ho <;> rw [ho] <;> rfl

theorem along_join (hq : q.isAbsolute = false) (p : Path) (start : Place) :
    start.along (p.join q) = (start.along p).along q := by
  by_cases hp : p.bytes = []
  · obtain ⟨bytes⟩ := p
    subst hp
    rw [empty_join]
    rfl
  · rw [along_of_relative hq, Place.along_eq_foldl, components_join_of_ne_nil hp hq, List.foldl_append]
    rfl

theorem isAbsolute_join_eq (p q : Path) : (p.join q).isAbsolute = (p.isAbsolute || q.isAbsolute) := by
  cases hq : q.isAbsolute with
  | true => rw [join_of_isAbsolute hq, hq, Bool.or_true]
  | false =>
    have hroot : .root ∉ q.components := fun h => by simp [isAbsolute_iff.mpr h] at hq
    rw [Bool.or_false, Bool.eq_iff_iff, isAbsolute_iff_root_mem_steps, isAbsolute_iff_root_mem_steps, steps_join hq,
      root_mem_foldl_follow]
    exact or_iff_left hroot

theorem leadsLike_join_normalize (p q : Path) : (p.join q).LeadsLike (p.normalize.join q.normalize) := by
  refine ⟨?_, fun start _ => ?_⟩
  · simp only [isAbsolute_join_eq, isAbsolute_normalize]
  · have hq : q.normalize.isAbsolute = q.isAbsolute := isAbsolute_normalize q
    cases habs : q.isAbsolute with
    | true => rw [join_of_isAbsolute habs, join_of_isAbsolute (hq.trans habs), Place.along_normalize]
    | false =>
      rw [along_join habs, along_join (hq.trans habs), Place.along_normalize, Place.along_normalize]

/-- Paths that lead to the same directories have one normal form, spelled alike, and no others share it. So
normalizing keeps a normal form, `.` stands in none but the path `.`, `..` only in front of a relative one, and a
joined path has the normal form of its parts' normal forms joined. -/
theorem normalize_eq_iff_leadsLike (p q : Path) :
    ((p.normalize == q.normalize) = true ↔ p.normalize = q.normalize) ∧
      (p.normalize = q.normalize ↔ p.LeadsLike q) ∧
      p.normalize.normalize = p.normalize ∧
      (.current ∈ p.normalize.components → p.normalize = ⟨[dot]⟩) ∧
      (∀ before after, p.normalize.components = before ++ .parent :: after →
        p.normalize.isAbsolute = false ∧ ∀ c ∈ before, c = .parent) ∧
      (p.join q).normalize = (p.normalize.join q.normalize).normalize := by
  have hsound : p.normalize.LeadsLike p :=
    ⟨isAbsolute_normalize p, fun start _ => Place.along_normalize start p⟩
  have hbeq : (p.normalize == q.normalize) = true ↔ p.normalize = q.normalize :=
    ⟨p.isNormal_normalize.eq_of_beq q.isNormal_normalize, fun h => beq_iff.mpr (by rw [h])⟩
  exact ⟨hbeq, ⟨leadsLike_of_normalize_eq, LeadsLike.normalize_eq⟩, hsound.normalize_eq, normalize_of_current_mem,
    fun _ _ => parents_lead, (leadsLike_join_normalize p q).normalize_eq⟩

end

end Path

end ElmImports
