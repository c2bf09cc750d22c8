import ElmImports.Proofs.Path.Join
import ElmImports.Proofs.Text.Pieces

/-!
# The last component

A path whose last component is a name is its parent followed by that name, whatever stands between and
behind them. From this follow the components of a path whose file name is replaced, and the steps of the
directory that holds a normal path.
-/

namespace ElmImports

namespace Path
variable {p : Path} {x : Bytes}

/-! ## The bytes behind the opening component -/

def body (p : Path) : Bytes :=
  p.bytes.drop p.openingBytes.length

theorem bytes_of_isDotted (h : p.isDotted = true) : p.bytes = [dot] ∨ ∃ rest, p.bytes = dot :: slash :: rest := by
  unfold isDotted at h
  obtain ⟨piece, pieces, he⟩ := List.exists_cons_of_ne_nil (List.splitOn_ne_nil slash p.bytes)
  have hp : [slash].intercalate (p.bytes.splitOn slash) = p.bytes := List.intercalate_splitOn slash
  rw [he] at h hp
  obtain rfl : piece = [dot] := by simpa using h
  cases pieces with
  | nil => exact Or.inl (by simpa using hp.symm)
  | cons second pieces => exact Or.inr ⟨_, hp.symm⟩

/-- A path is spelled and read in two parts, its opening component and its body. -/
theorem opening_body (p : Path) :
    p.bytes = p.openingBytes ++ p.body ∧ p.components = p.opening ++ named p.body ∧
      components ⟨p.openingBytes⟩ = p.opening := by
  unfold body
  by_cases habs : p.isAbsolute = true
  · have ho : p.opening = [.root] := by unfold opening; rw [if_pos habs]
    have hob : p.openingBytes = [slash] := by unfold openingBytes; rw [ho]; rfl
    obtain ⟨rest, hp⟩ : ∃ rest, p.bytes = slash :: rest := by
      unfold isAbsolute at habs
      exact List.head?_eq_some_iff.mp (by simpa using habs)
    rw [hob, components_eq, ho, hp]
    exact ⟨rfl, by rw [named_slash_cons]; rfl, rfl⟩
  · by_cases hdot : p.isDotted = true
    · have ho : p.opening = [.current] := by unfold opening; rw [if_neg habs, if_pos hdot]
      have hob : p.openingBytes = [dot] := by unfold openingBytes; rw [ho]; rfl
      rw [hob, components_eq, ho]
      rcases bytes_of_isDotted hdot with hp | ⟨rest, hp⟩
      · rw [hp]
        exact ⟨rfl, rfl, rfl⟩
      · rw [hp]
        refine ⟨rfl, ?_, rfl⟩
        have := named_append_slash [dot] rest
        rw [List.singleton_append] at this
        rw [this]
        exact congrArg ([.current] ++ ·) (named_slash_cons rest).symm
    · have ho : p.opening = [] := by unfold opening; rw [if_neg habs, if_neg hdot]
      have hob : p.openingBytes = [] := by unfold openingBytes; rw [ho]; rfl
      rw [hob, components_eq, ho]
      exact ⟨rfl, rfl, rfl⟩

theorem named_body (p : Path) : named p.body = (p.trailing.filterMap Component.ofPiece?).reverse := by
  unfold trailing
  rw [Pieces.filterMap_dropWhile_isNone, List.filterMap_reverse, List.reverse_reverse]
  rfl

theorem named_intercalate {pieces : List Bytes} (h : ∀ piece ∈ pieces, slash ∉ piece) :
    named ([slash].intercalate pieces) = pieces.filterMap Component.ofPiece? := by
  by_cases hne : pieces = []
  · subst hne
    rfl
  · unfold named
    rw [List.splitOn_intercalate slash h hne]

/-! ## File name and parent -/

theorem fileName?_eq_some : p.fileName? = some x ↔ p.components.getLast? = some (.name x) := by
  unfold fileName?
  split
  · rename_i bytes he
    rw [he, Option.some_inj, Option.some_inj, Component.name.injEq]
  · rename_i hno
    exact iff_of_false (by simp) (hno x)

theorem fileName?_of_components {cs : List Component} (h : p.components = cs ++ [.name x]) :
    p.fileName? = some x := by
  rw [fileName?_eq_some, h, List.getLast?_concat]

theorem name_not_mem_opening (p : Path) (x : Bytes) : Component.name x ∉ p.opening := by
  unfold opening
  split
  · simp
  · split <;> simp

theorem isStep_of_fileName? (h : p.fileName? = some x) : (Component.name x).IsStep := by
  have hmem := List.mem_of_getLast? (fileName?_eq_some.mp h)
  rw [components_eq, List.mem_append] at hmem
  exact isStep_of_mem_named (hmem.resolve_left (p.name_not_mem_opening x))

theorem named_of_trailing {last : Bytes} {before : List Bytes} (h : p.trailing = last :: before) :
    ∃ c, Component.ofPiece? last = some c ∧
      named p.body = (before.filterMap Component.ofPiece?).reverse ++ [c] := by
  have hdrop : (p.body.splitOn slash).reverse.dropWhile (Component.ofPiece? · |>.isNone) = last :: before := h
  have hlast := List.head?_dropWhile_not (Component.ofPiece? · |>.isNone) (p.body.splitOn slash).reverse
  rw [hdrop] at hlast
  obtain ⟨c, hc⟩ := Option.isSome_iff_exists.mp (Option.isNone_eq_false_iff.mp hlast)
  refine ⟨c, hc, ?_⟩
  rw [named_body, h, List.filterMap_cons_some hc, List.reverse_cons]

theorem slash_not_mem_of_kept {kept behind : List Bytes} (h : p.body.splitOn slash = kept ++ behind) :
    (∀ piece ∈ kept, slash ∉ piece) ∧ ∀ piece ∈ behind, slash ∉ piece := by
  have hmem : ∀ piece ∈ kept ++ behind, slash ∉ piece := by
    rw [← h]
    intro piece hp
    exact slash_not_mem_of_mem_splitOn hp
  exact ⟨fun piece hp => hmem piece (List.mem_append_left _ hp),
    fun piece hp => hmem piece (List.mem_append_right _ hp)⟩

/-- A path cut at one of its slashes: what is cut off names what its own pieces do. -/
theorem components_cut {kept behind : List Bytes} (h : p.body.splitOn slash = kept ++ behind)
    (hkept : kept ≠ [] → kept.filterMap Component.ofPiece? ≠ []) (hbehind : behind ≠ []) :
    p.components = components ⟨p.openingBytes ++ [slash].intercalate kept⟩ ++
      behind.filterMap Component.ofPiece? := by
  obtain ⟨hbytes, hcomponents, hopening⟩ := p.opening_body
  obtain ⟨hslash, hslash'⟩ := slash_not_mem_of_kept h
  have hbody : [slash].intercalate (p.body.splitOn slash) = p.body := List.intercalate_splitOn slash
  rw [h] at hbody
  by_cases hk : kept = []
  · subst hk
    rw [hcomponents, List.intercalate_nil, List.append_nil, hopening, ← named_intercalate hslash']
    rw [List.nil_append] at hbody
    rw [hbody]
  · have hne : p.openingBytes ++ [slash].intercalate kept ≠ [] := by
      intro he
      apply hkept hk
      rw [← named_intercalate hslash, (List.append_eq_nil_iff.mp he).2]
      rfl
    have hcut : p.bytes = (p.openingBytes ++ [slash].intercalate kept) ++ slash :: [slash].intercalate behind := by
      rw [List.append_assoc, ← Pieces.intercalate_append hk hbehind, hbody]
      exact hbytes
    calc p.components = components ⟨p.bytes⟩ := rfl
      _ = components ⟨_ ++ slash :: [slash].intercalate behind⟩ := by rw [hcut]
      _ = _ := by rw [components_append_slash hne, named_intercalate hslash']

/-- The pieces ahead of the last one, less the empty ones at their end, are the first pieces of the body. -/
theorem splitOn_body_of_trailing {last : Bytes} {before : List Bytes} (h : p.trailing = last :: before) :
    ∃ behind, p.body.splitOn slash =
      (before.dropWhile (Component.ofPiece? · |>.isNone)).reverse ++ behind := by
  have htrailing : p.trailing <:+ (p.body.splitOn slash).reverse := List.dropWhile_suffix _
  rw [h] at htrailing
  have hsuffix := (List.dropWhile_suffix (Component.ofPiece? · |>.isNone)).trans
    ((List.suffix_cons last before).trans htrailing)
  obtain ⟨behind, hbehind⟩ := List.reverse_prefix.mpr hsuffix
  rw [List.reverse_reverse] at hbehind
  exact ⟨behind, hbehind.symm⟩

theorem parent?_of_fileName? (h : p.fileName? = some x) :
    ∃ dir, p.parent? = some dir ∧ p.components = dir.components ++ [.name x] := by
  rw [fileName?_eq_some, p.opening_body.2.1, List.getLast?_append] at h
  cases htrailing : p.trailing with
  | nil =>
    rw [named_body, htrailing] at h
    exact absurd (List.mem_of_getLast? h) (p.name_not_mem_opening x)
  | cons last before =>
    refine ⟨_, by unfold parent?; rw [htrailing], ?_⟩
    obtain ⟨c, -, hnamed⟩ := named_of_trailing htrailing
    obtain rfl : c = .name x := by
      rw [hnamed, List.getLast?_concat] at h
      exact Option.some.inj h
    obtain ⟨behind, hbehind⟩ := splitOn_body_of_trailing htrailing
    have hkept : (before.dropWhile (Component.ofPiece? · |>.isNone)).reverse.filterMap Component.ofPiece? =
        (before.filterMap Component.ofPiece?).reverse := by
      rw [List.filterMap_reverse, Pieces.filterMap_dropWhile_isNone]
    have hlast : behind.filterMap Component.ofPiece? = [.name x] := by
      have : named p.body = _ := congrArg (List.filterMap Component.ofPiece?) hbehind
      rw [List.filterMap_append, hkept, hnamed] at this
      exact (List.append_cancel_left this).symm
    rw [← hlast]
    refine components_cut hbehind ?_ ?_
    · intro hne
      rw [hkept, ne_eq, List.reverse_eq_nil_iff]
      exact Pieces.filterMap_ne_nil_of_dropWhile (mt List.reverse_eq_nil_iff.mpr hne)
    · rintro rfl
      cases hlast

/-! ## Names with and without a dot -/

theorem isStep_name {name : Bytes} (hne : name ≠ []) (hdot : name ≠ [dot]) (hdots : name ≠ [dot, dot])
    (hslash : slash ∉ name) : (Component.name name).IsStep := by
  refine ⟨?_, hslash⟩
  show Component.ofPiece? name = some (.name name)
  unfold Component.ofPiece?
  split
  · exact absurd rfl hne
  · exact absurd rfl hdot
  · exact absurd rfl hdots
  · rfl

theorem isStep_of_dot_not_mem {name : Bytes} (hne : name ≠ []) (hdot : dot ∉ name) (hslash : slash ∉ name) :
    (Component.name name).IsStep := by
  refine isStep_name hne ?_ ?_ hslash <;> rintro rfl <;> simp at hdot

/-- A name with an extension behind it is a name. -/
theorem isStep_append_extension {name ext : Bytes} (h : (Component.name name).IsStep) (hext : slash ∉ ext) :
    (Component.name (name ++ dot :: ext)).IsStep := by
  have hne : name ≠ [] := h.ne_nil
  have hdot : name ≠ [dot] := h.ne_dot
  have hslash : slash ∉ name ++ dot :: ext := by
    have hname : slash ∉ name := h.2
    have hdiff : slash ≠ dot := by decide
    simp [hname, hext, hdiff]
  obtain ⟨b, rest, rfl⟩ := List.exists_cons_of_ne_nil hne
  refine isStep_name (by simp) (by simp) ?_ hslash
  rintro he
  have hrest : rest = [] := by
    have := congrArg List.length he
    simp at this
    exact List.eq_nil_of_length_eq_zero (by omega)
  subst hrest
  exact hdot (by simpa using congrArg (List.take 1) he)

/-! ## Another file name -/

theorem components_of_isStep (h : (Component.name x).IsStep) :
    opening ⟨x⟩ = [] ∧ components ⟨x⟩ = [.name x] := by
  have hnamed : named x = [.name x] := by
    have hx : slash ∉ x := h.2
    rw [named_of_slash_not_mem hx, show Component.ofPiece? x = some (.name x) from h.1]
    rfl
  have hcomponents : components ⟨[slash].intercalate ([Component.name x].map Component.spelling)⟩ = [.name x] :=
    components_joined (by simpa using h) (by simp)
  rw [List.map_singleton, List.intercalate_singleton] at hcomponents
  change components ⟨x⟩ = [.name x] at hcomponents
  refine ⟨?_, hcomponents⟩
  rw [components_eq, hnamed] at hcomponents
  exact List.append_cancel_right (hcomponents.trans (List.nil_append _).symm)

/-- A name stands behind what is left of the path without its file name. -/
theorem components_withFileName {name : Bytes} (h : (Component.name name).IsStep) (p : Path) :
    (p.withFileName name).components =
      (if p.fileName?.isSome then p.components.dropLast else p.components) ++ [.name name] := by
  obtain ⟨hopening, hcomponents⟩ := components_of_isStep h
  unfold withFileName
  rw [components_join hopening, hcomponents]
  cases hname : p.fileName? with
  | none => rfl
  | some x =>
    obtain ⟨dir, hdir, hp⟩ := parent?_of_fileName? hname
    rw [hdir, hp]
    simp

/-! ## Steps that end in a name -/

theorem isAbsolute_iff : p.isAbsolute = true ↔ .root ∈ p.components := by
  rw [components_eq, List.mem_append]
  constructor
  · intro h
    unfold opening
    rw [if_pos h]
    exact Or.inl (by simp)
  · rintro (h | h)
    · by_cases habs : p.isAbsolute = true
      · exact habs
      · rcases opening_of_relative (by simpa using habs) with ho | ho <;> rw [ho] at h <;> simp at h
    · exact absurd (isStep_of_mem_named h) Component.not_isStep_root

theorem steps_of_concat {cs : List Component} (h : p.components = cs ++ [.name x]) :
    p.steps = .name x :: cs.foldl follow [] := by
  unfold steps
  rw [h, List.foldl_append]
  rfl

theorem steps_join_concat {cs : List Component} (h : p.components = cs ++ [.name x]) (base : Path) :
    ∃ below, (base.join p).steps = .name x :: below := by
  by_cases habs : p.isAbsolute = true
  · rw [join_of_isAbsolute habs, steps_of_concat h]
    exact ⟨_, rfl⟩
  · rw [steps_join (by simpa using habs), h, List.foldl_append]
    exact ⟨_, rfl⟩

theorem foldl_follow_names (names : List Bytes) (kept : List Component) :
    (names.map .name).foldl follow kept = (names.map .name).reverse ++ kept := by
  induction names generalizing kept with
  | nil => rfl
  | cons name names ih =>
    rw [List.map_cons, List.foldl_cons, ih, List.reverse_cons, List.append_assoc]
    rfl

section
variable {below : List Component} (h : p.steps = .name x :: below)
include h

theorem components_normalize_of_steps : p.normalize.components = below.reverse ++ [.name x] := by
  rw [components_normalize, h, if_neg (by simp), List.reverse_cons]

theorem fileName?_normalize : p.normalize.fileName? = some x :=
  fileName?_of_components (components_normalize_of_steps h)

/-- The directory that holds a normal path leaves out the last step. -/
theorem steps_directory_normalize : p.normalize.directory.steps = below := by
  have hcomponents := components_normalize_of_steps h
  obtain ⟨dir, hdir, hp⟩ := parent?_of_fileName? (fileName?_normalize h)
  have hbelow : dir.components = below.reverse := List.append_cancel_right (hp.symm.trans hcomponents)
  have hkept : Kept below := (h ▸ kept_steps p : Kept (.name x :: below)).2
  unfold directory
  rw [hdir]
  dsimp only
  split
  · rename_i hempty
    obtain ⟨bytes⟩ := dir
    obtain rfl : bytes = [] := by simpa [isEmpty] using hempty
    have hnil : below = [] := List.reverse_eq_nil_iff.mp hbelow.symm
    rw [hnil]
    rfl
  · unfold steps
    rw [hbelow, foldl_follow_reverse hkept]

end

/-! ## Extensions -/

theorem bne_dot_of_mem_reverse {ext : Bytes} (hext : dot ∉ ext) : ∀ b ∈ ext.reverse, (b != dot) = true := by
  intro b hb
  rw [bne_iff_ne]
  rintro rfl
  exact hext (List.mem_reverse.mp hb)

theorem cutAtLastDot_append {name ext : Bytes} (hname : name ≠ []) (hext : dot ∉ ext) :
    cutAtLastDot (name ++ dot :: ext) = (name, some ext) := by
  obtain ⟨init, last, rfl⟩ := (List.eq_nil_or_concat name).resolve_left hname
  unfold cutAtLastDot
  have hreverse : (init.concat last ++ dot :: ext).reverse = ext.reverse ++ dot :: last :: init.reverse := by
    simp
  rw [hreverse, List.dropWhile_append_of_pos (bne_dot_of_mem_reverse hext),
    List.takeWhile_append_of_pos (bne_dot_of_mem_reverse hext)]
  simp

theorem cutAtLastDot_dot_cons {ext : Bytes} (hext : dot ∉ ext) :
    cutAtLastDot (dot :: ext) = (dot :: ext, none) := by
  unfold cutAtLastDot
  rw [List.reverse_cons, List.dropWhile_append_of_pos (bne_dot_of_mem_reverse hext)]
  simp

end Path

end ElmImports
