import ElmImports.Proofs.Path.Place

/-!
# Going up from a normal path

A normal path is spelled by its kept steps, behind a slash if it starts at the root. Its parent is spelled without
the last of them, and a file of a directory with one step more. So the directories that are met going up lead to the
place of the path and to those above it, one after the other, as far as names are left.
-/

namespace ElmImports

def Component.piece : Component → Bytes
  | .root => []
  | c => c.spelling

theorem Component.piece_of_isStep {c : Component} (h : c.IsStep) : c.piece = c.spelling := by
  cases c with
  | root => exact absurd h not_isStep_root
  | _ => rfl

namespace Path

/-! ## Steps between slashes -/

def joined (below : List Component) : Bytes :=
  [slash].intercalate (below.reverse.map Component.spelling)

theorem joined_cons (c : Component) (below : List Component) :
    joined (c :: below) = (if below = [] then [] else joined below ++ [slash]) ++ c.spelling := by
  unfold joined
  rw [List.reverse_cons, List.map_append]
  split
  · rename_i hnil
    subst hnil
    simp
  · rename_i hne
    rw [Pieces.intercalate_append (by simpa using hne) (by simp)]
    simp

theorem length_joined_lt {c : Component} (hc : c.IsStep) (below : List Component) :
    (joined below).length < (joined (c :: below)).length := by
  have hpos : 0 < c.spelling.length := List.length_pos_iff.mpr hc.ne_nil
  rw [joined_cons, List.length_append]
  split
  · rename_i hnil
    subst hnil
    rw [List.length_nil, Nat.zero_add]
    exact hpos
  · rw [List.length_append, List.length_singleton]
    omega

theorem getLast?_joined_cons {c : Component} (hc : c.IsStep) (below : List Component) :
    ∃ last, (joined (c :: below)).getLast? = some last ∧ last ≠ slash := by
  obtain ⟨init, last, hlast⟩ := (List.eq_nil_or_concat c.spelling).resolve_left hc.ne_nil
  rw [List.concat_eq_append] at hlast
  refine ⟨last, ?_, ?_⟩
  · rw [joined_cons, hlast, ← List.append_assoc, List.getLast?_concat]
  · rintro rfl
    exact hc.2 (by rw [hlast]; simp)

/-! ## Spelled paths -/

def spelled (kept : List Component) : Path :=
  ofComponents kept.reverse

def IsLead (lead : List Component) : Prop :=
  lead = [] ∨ lead = [.root]

theorem exists_lead : ∀ {kept : List Component}, Kept kept →
    ∃ below lead, kept = below ++ lead ∧ IsLead lead ∧ ∀ c ∈ below, c.IsStep
  | [], _ => ⟨[], [], rfl, .inl rfl, List.forall_mem_nil _⟩
  | .root :: _, h => by
    obtain rfl := h
    exact ⟨[], [.root], rfl, .inr rfl, List.forall_mem_nil _⟩
  | .parent :: rest, h =>
    ⟨.parent :: rest, [], (List.append_nil _).symm, .inl rfl,
      List.forall_mem_cons.mpr ⟨Component.isStep_parent, fun c hc => h c hc ▸ Component.isStep_parent⟩⟩
  | .name _ :: _, h => by
    obtain ⟨below, lead, rfl, hlead, hbelow⟩ := exists_lead h.2
    exact ⟨_ :: below, lead, rfl, hlead, List.forall_mem_cons.mpr ⟨h.1, hbelow⟩⟩

section
variable {lead below : List Component} {c : Component} (hlead : IsLead lead)
include hlead

theorem spelled_append (hbelow : ∀ c ∈ below, c.IsStep) :
    spelled (below ++ lead) = ⟨lead.flatMap Component.spelling ++ joined below⟩ := by
  unfold spelled
  rw [List.reverse_append]
  rcases hlead with rfl | rfl
  · rw [List.reverse_nil, List.nil_append]
    unfold ofComponents
    split
    · rename_i heq
      have hroot : Component.root ∈ below := List.mem_reverse.mp (heq ▸ List.mem_cons_self)
      exact absurd (hbelow _ hroot) Component.not_isStep_root
    · rfl
  · rfl

theorem opening_spelled (hbelow : ∀ c ∈ below, c.IsStep) : (spelled (below ++ lead)).opening = lead := by
  rw [spelled_append hlead hbelow]
  rcases hlead with rfl | rfl
  · by_cases hnil : below = []
    · subst hnil
      rfl
    · have hsteps : ∀ c ∈ below.reverse, c.IsStep := fun c hc => hbelow c (List.mem_reverse.mp hc)
      have hcomponents := components_joined hsteps (by simpa using hnil)
      -- a root or a dot that opens the path would be one of its steps
      refine List.eq_nil_iff_forall_not_mem.mpr fun c hc => ?_
      have hstep : c.IsStep := hsteps c (by rw [← hcomponents]; exact List.mem_append_left _ hc)
      have hkind : c = .root ∨ c = .current := by
        unfold opening at hc
        split at hc
        · exact .inl (List.mem_singleton.mp hc)
        · split at hc
          · exact .inr (List.mem_singleton.mp hc)
          · cases hc
      rcases hkind with rfl | rfl
      · exact Component.not_isStep_root hstep
      · exact Component.not_isStep_current hstep
  · rfl

theorem splitOn_spelled (hbelow : ∀ c ∈ below, c.IsStep) (hne : below ≠ []) :
    (spelled (below ++ lead)).bytes.splitOn slash = (below ++ lead).reverse.map Component.piece := by
  have hsteps : ∀ c ∈ below.reverse, c.IsStep := fun c hc => hbelow c (List.mem_reverse.mp hc)
  have hpieces : below.reverse.map Component.piece = below.reverse.map Component.spelling :=
    List.map_congr_left fun c hc => Component.piece_of_isStep (hsteps c hc)
  have hjoined : (joined below).splitOn slash = below.reverse.map Component.piece := by
    rw [hpieces]
    exact splitOn_joined hsteps (by simpa using hne)
  rw [spelled_append hlead hbelow, List.reverse_append, List.map_append, ← hjoined]
  rcases hlead with rfl | rfl
  · rfl
  · exact List.splitOn_append_cons_self [] (joined below)

theorem trailing_spelled (hbelow : ∀ c ∈ below, c.IsStep) :
    (spelled (below ++ lead)).trailing = below.map Component.spelling := by
  have hopening := opening_spelled hlead hbelow
  have hbody : (spelled (below ++ lead)).bytes.drop (spelled (below ++ lead)).openingBytes.length = joined below := by
    unfold openingBytes
    rw [hopening, spelled_append hlead hbelow, List.drop_left]
  unfold trailing
  rw [hbody]
  by_cases hnil : below = []
  · subst hnil
    rfl
  · have hsteps : ∀ c ∈ below.reverse, c.IsStep := fun c hc => hbelow c (List.mem_reverse.mp hc)
    unfold joined
    rw [splitOn_joined hsteps (by simpa using hnil), ← List.map_reverse, List.reverse_reverse]
    obtain ⟨c, rest, rfl⟩ := List.exists_cons_of_ne_nil hnil
    have hfirst := (hbelow c List.mem_cons_self).1
    rw [List.map_cons, List.dropWhile_cons_of_neg (by rw [hfirst]; exact Bool.false_ne_true)]

theorem parent?_spelled_cons (hbelow : ∀ d ∈ c :: below, d.IsStep) :
    (spelled (c :: below ++ lead)).parent? = some (spelled (below ++ lead)) := by
  obtain ⟨-, hrest⟩ := List.forall_mem_cons.mp hbelow
  have hdrop : (below.map Component.spelling).dropWhile (Component.ofPiece? · |>.isNone) =
      below.map Component.spelling := by
    cases below with
    | nil => rfl
    | cons d below =>
      have hfirst := (hrest d List.mem_cons_self).1
      rw [List.map_cons, List.dropWhile_cons_of_neg (by rw [hfirst]; exact Bool.false_ne_true)]
  unfold parent?
  rw [trailing_spelled hlead hbelow, List.map_cons]
  dsimp only
  unfold openingBytes
  rw [hdrop, opening_spelled hlead hbelow, ← List.map_reverse, spelled_append hlead hrest]
  rfl

theorem parent?_spelled_lead : (spelled lead).parent? = none := by
  rcases hlead with rfl | rfl <;> rfl

theorem join_spelled {name : Bytes} (hname : (Component.name name).IsStep) (hbelow : ∀ c ∈ below, c.IsStep) :
    (spelled (below ++ lead)).join ⟨name⟩ = spelled (.name name :: below ++ lead) := by
  have hsteps : ∀ c ∈ Component.name name :: below, c.IsStep := List.forall_mem_cons.mpr ⟨hname, hbelow⟩
  have hrelative : isAbsolute ⟨name⟩ = false := isAbsolute_of_opening_eq_nil (components_of_isStep hname).1
  rw [spelled_append hlead hsteps, spelled_append hlead hbelow, joined_cons]
  unfold join
  rw [if_neg (by rw [hrelative]; exact Bool.false_ne_true)]
  dsimp only
  cases below with
  | nil => rcases hlead with rfl | rfl <;> rfl
  | cons d below =>
    obtain ⟨last, hlast, hne⟩ := getLast?_joined_cons (hbelow d List.mem_cons_self) below
    have hends : ¬ (lead.flatMap Component.spelling ++ joined (d :: below)).getLast?.all (· == slash) = true := by
      rw [List.getLast?_append, hlast]
      simpa using hne
    rw [if_neg hends, if_neg (List.cons_ne_nil d below), List.append_assoc, List.append_assoc]
    rfl

end

/-! ## Going up -/

theorem exists_lead_cons {c : Component} {kept : List Component} (h : Kept (c :: kept)) (hc : c ≠ .root) :
    ∃ below lead, kept = below ++ lead ∧ IsLead lead ∧ ∀ d ∈ c :: below, d.IsStep := by
  obtain ⟨below, lead, he, hlead, hbelow⟩ := exists_lead h
  cases below with
  | nil =>
    rcases hlead with rfl | rfl
    · cases he
    · exact absurd (List.cons.inj he).1 hc
  | cons d below =>
    obtain ⟨rfl, rfl⟩ := List.cons.inj he
    exact ⟨below, lead, rfl, hlead, hbelow⟩

section
variable {c : Component} {kept : List Component} (h : Kept (c :: kept)) (hc : c ≠ .root)
include h hc

theorem parent?_spelled : (spelled (c :: kept)).parent? = some (spelled kept) := by
  obtain ⟨below, lead, rfl, hlead, hbelow⟩ := exists_lead_cons h hc
  exact parent?_spelled_cons hlead hbelow

theorem length_spelled_lt : (spelled kept).bytes.length < (spelled (c :: kept)).bytes.length := by
  obtain ⟨below, lead, rfl, hlead, hbelow⟩ := exists_lead_cons h hc
  obtain ⟨hfirst, hrest⟩ := List.forall_mem_cons.mp hbelow
  have hlt := length_joined_lt hfirst below
  rw [← List.cons_append, spelled_append hlead hrest, spelled_append hlead hbelow, List.length_append,
    List.length_append]
  omega

theorem ancestorsWithin_spelled {n : Nat} (hn : (spelled (c :: kept)).bytes.length ≤ n) :
    ∃ n', (spelled kept).bytes.length ≤ n' ∧
      ancestorsWithin n (spelled (c :: kept)) = spelled (c :: kept) :: ancestorsWithin n' (spelled kept) := by
  have hlt := length_spelled_lt h hc
  obtain ⟨n', rfl⟩ : ∃ n', n = n' + 1 := Nat.exists_eq_add_one.mpr (by omega)
  refine ⟨n', by omega, ?_⟩
  rw [ancestorsWithin, parent?_spelled h hc]

end

theorem ancestorsWithin_lead {lead : List Component} (hlead : IsLead lead) (n : Nat) :
    ancestorsWithin n (spelled lead) = [spelled lead] := by
  cases n with
  | zero => rfl
  | succ n => rw [ancestorsWithin, parent?_spelled_lead hlead]

theorem steps_spelled {kept : List Component} (h : Kept kept) : (spelled kept).steps = kept := by
  by_cases hnil : kept = []
  · subst hnil
    rfl
  · unfold steps spelled
    rw [components_ofComponents h hnil, foldl_follow_reverse h]

theorem IsNormal.eq_spelled {p : Path} (hp : p.IsNormal) : p = if p.steps = [] then ⟨[dot]⟩ else spelled p.steps := by
  refine (show p.normalize = p from hp).symm.trans ?_
  unfold normalize
  split
  · rename_i hnil
    exact (if_pos (show p.steps = [] from List.reverse_eq_nil_iff.mp hnil)).symm
  · rename_i hne
    exact (if_neg (show ¬ p.steps = [] from mt List.reverse_eq_nil_iff.mpr hne)).symm

theorem kept_tail {c : Component} {kept : List Component} (h : Kept (c :: kept)) : Kept kept := by
  cases c with
  | name bytes => exact h.2
  | parent => exact kept_of_parents h
  | root =>
    obtain rfl := h
    exact trivial
  | current => exact h.elim

/-- Every directory met going up is spelled by kept steps too, and no longer than the path. -/
theorem mem_ancestorsWithin : ∀ {kept : List Component} {n : Nat} {a : Path}, Kept kept →
    (spelled kept).bytes.length ≤ n → a ∈ ancestorsWithin n (spelled kept) →
    ∃ above, Kept above ∧ a = spelled above ∧ a.bytes.length ≤ (spelled kept).bytes.length
  | [], n, a, h, _, ha => by
    rw [ancestorsWithin_lead (.inl rfl), List.mem_singleton] at ha
    exact ⟨[], h, ha, Nat.le_of_eq (by rw [ha])⟩
  | c :: kept, n, a, h, hn, ha => by
    by_cases hc : c = .root
    · subst hc
      have hnil : kept = [] := h
      subst hnil
      rw [ancestorsWithin_lead (.inr rfl), List.mem_singleton] at ha
      exact ⟨[.root], h, ha, Nat.le_of_eq (by rw [ha])⟩
    · obtain ⟨n', hn', he⟩ := ancestorsWithin_spelled h hc hn
      rw [he] at ha
      rcases List.mem_cons.mp ha with rfl | ha
      · exact ⟨c :: kept, h, rfl, Nat.le_refl _⟩
      · obtain ⟨above, habove, hspelled, hle⟩ := mem_ancestorsWithin (kept_tail h) hn' ha
        exact ⟨above, habove, hspelled, Nat.le_trans hle (Nat.le_of_lt (length_spelled_lt h hc))⟩

end Path

/-! ## The places above -/

namespace Component

def originOf (cwd : Place) (kept : List Component) : Place :=
  if .root ∈ kept then [] else cwd.drop (kept.count .parent)

theorem originOf_name (cwd : Place) (bytes : Bytes) (kept : List Component) :
    originOf cwd (name bytes :: kept) = originOf cwd kept := by
  simp [originOf]

theorem originOf_steps (cwd : Place) (p : Path) : originOf cwd p.steps = p.origin cwd := by
  unfold originOf Path.origin Path.climb
  simp only [Path.isAbsolute_iff_root_mem_steps]

end Component

namespace Place

open Component (originOf)

/-- The place below `origin` that the names lead to, and those above it, the nearest first and `origin` last. -/
def upTo (origin : Place) : List Bytes → List Place
  | [] => [origin]
  | name :: above => (name :: above ++ origin) :: upTo origin above

/-- The places below the directory that `n` parent steps lead to, down to `cwd`. -/
def back (cwd : Place) : Nat → List Place
  | 0 => []
  | n + 1 => cwd.drop n :: cwd.back n

section
variable {origin place : Place} {names : List Bytes}

theorem mem_upTo : place ∈ upTo origin names ↔ origin <:+ place ∧ place <:+ names ++ origin := by
  induction names with
  | nil =>
    rw [upTo, List.mem_singleton, List.nil_append]
    constructor
    · rintro rfl
      exact ⟨List.suffix_rfl, List.suffix_rfl⟩
    · rintro ⟨h, h'⟩
      exact h'.eq_of_length_le h.length_le
  | cons name above ih =>
    rw [upTo, List.mem_cons, ih, List.cons_append, List.suffix_cons_iff]
    constructor
    · rintro (rfl | ⟨h, h'⟩)
      · exact ⟨List.suffix_append (name :: above) origin, .inl rfl⟩
      · exact ⟨h, .inr h'⟩
    · rintro ⟨h, rfl | h'⟩
      · exact .inl rfl
      · exact .inr ⟨h, h'⟩

/-- The first of these places with a property is the nearest. -/
theorem find?_upTo {q : Place → Bool} (h : (upTo origin names).find? q = some place) :
    ∀ nearer, place <:+ nearer → nearer ≠ place → nearer <:+ names ++ origin → q nearer = false := by
  induction names with
  | nil =>
    intro nearer hplace hne hnearer
    have hmem := mem_upTo.mp (List.mem_of_find?_eq_some h)
    exact absurd (hnearer.eq_of_length_le (hmem.1.trans hplace).length_le) fun he =>
      hne (he.trans (hmem.2.eq_of_length_le hmem.1.length_le).symm)
  | cons name above ih =>
    intro nearer hplace hne hnearer
    rw [upTo, List.find?_cons] at h
    split at h
    · obtain rfl := Option.some.inj h
      exact absurd (hnearer.eq_of_length_le hplace.length_le) hne
    · rename_i hfirst
      rcases List.suffix_cons_iff.mp hnearer with rfl | hnearer
      · exact hfirst
      · exact ih h nearer hplace hne hnearer

end

theorem along_spelled (cwd : Place) {kept : List Component} (h : Path.Kept kept) :
    cwd.along (Path.spelled kept) = kept.filterMap Component.name? ++ originOf cwd kept := by
  rw [along_eq_leadTo, Path.steps_spelled h]
  rfl

end Place

namespace Path

open Component (originOf)

/-- Going up, a path first passes the places above it, down to the one it starts from, and then has its parent steps
taken back. -/
theorem map_along_ancestorsWithin (cwd : Place) : ∀ {kept : List Component} {n : Nat}, Kept kept →
    (spelled kept).bytes.length ≤ n → (ancestorsWithin n (spelled kept)).map cwd.along =
      Place.upTo (originOf cwd kept) (kept.filterMap Component.name?) ++ cwd.back (kept.count .parent)
  | [], n, h, _ => by
    rw [ancestorsWithin_lead (.inl rfl), List.map_singleton, cwd.along_spelled h]
    rfl
  | .root :: kept, n, h, _ => by
    have hnil : kept = [] := h
    subst hnil
    rw [ancestorsWithin_lead (.inr rfl), List.map_singleton, cwd.along_spelled h]
    rfl
  | .parent :: kept, n, h, hn => by
    obtain ⟨n', hn', he⟩ := ancestorsWithin_spelled h nofun hn
    have hparents : ∀ c ∈ kept, c = .parent := h
    have hnames : kept.filterMap Component.name? = [] := List.filterMap_eq_nil_iff.mpr fun c hc => hparents c hc ▸ rfl
    have hroot : .root ∉ kept := fun hmem => nomatch hparents .root hmem
    have horigin : originOf cwd kept = cwd.drop (kept.count .parent) := if_neg hroot
    -- below the first parent step only parent steps stand, each of which is taken back
    rw [he, List.map_cons, map_along_ancestorsWithin cwd (kept_of_parents hparents) hn', cwd.along_spelled h,
      List.filterMap_cons_none rfl, hnames, horigin, List.count_cons_self]
    rfl
  | .name bytes :: kept, n, h, hn => by
    obtain ⟨n', hn', he⟩ := ancestorsWithin_spelled h nofun hn
    have hcount : (Component.name bytes :: kept).count .parent = kept.count .parent := by simp
    rw [he, List.map_cons, map_along_ancestorsWithin cwd (kept_tail h) hn', cwd.along_spelled h, hcount,
      Component.originOf_name]
    rfl

def searched (d : Path) (cwd : Place) : List Place :=
  Place.upTo (d.origin cwd) d.descent ++ cwd.back d.climb

def IsSpelled (a : Path) : Prop :=
  a = ⟨[dot]⟩ ∨ ∃ kept, Kept kept ∧ a = spelled kept

namespace IsNormal

variable {d : Path} (hd : d.IsNormal)
include hd

theorem find?_ancestors (cwd : Place) (q : Place → Bool) :
    (d.ancestors.map cwd.along).find? q = (d.searched cwd).find? q := by
  have hspelled := hd.eq_spelled
  split at hspelled
  · -- behind the dot the empty path is met, which leads to the same place
    subst hspelled
    show [cwd, cwd].find? q = [cwd].find? q
    rw [List.find?_cons, List.find?_cons]
    split <;> simp_all
  · have hlength : (spelled d.steps).bytes.length ≤ d.bytes.length := Nat.le_of_eq (by rw [← hspelled])
    have hplaces := map_along_ancestorsWithin cwd d.kept_steps hlength
    rw [← hspelled, Component.originOf_steps] at hplaces
    exact congrArg (List.find? q) hplaces

theorem mem_ancestors {a : Path} (ha : a ∈ d.ancestors) : a.IsSpelled ∧ a.bytes.length ≤ d.bytes.length := by
  have hspelled := hd.eq_spelled
  split at hspelled
  · subst hspelled
    have hancestors : ancestors ⟨[dot]⟩ = [⟨[dot]⟩, ⟨[]⟩] := rfl
    rw [hancestors] at ha
    rcases List.mem_cons.mp ha with rfl | ha
    · exact ⟨.inl rfl, Nat.le_refl _⟩
    · rw [List.mem_singleton.mp ha]
      exact ⟨.inr ⟨[], trivial, rfl⟩, Nat.zero_le _⟩
  · have hlength : (spelled d.steps).bytes.length ≤ d.bytes.length := Nat.le_of_eq (by rw [← hspelled])
    have hancestors : d.ancestors = ancestorsWithin d.bytes.length (spelled d.steps) := by
      rw [← hspelled]
      rfl
    rw [hancestors] at ha
    obtain ⟨above, habove, he, hle⟩ := mem_ancestorsWithin d.kept_steps hlength ha
    exact ⟨.inr ⟨above, habove, he⟩, Nat.le_trans hle hlength⟩

end IsNormal

end Path

end ElmImports
