import ElmImports.Json.Extent

/-!
# Project manifests

A manifest is a JSON object of which one member is wanted: the list of source directories. It may be left
out or null, and must not be given twice; every other member is passed over. An array of exactly one value
stands for an object with that one member.
-/

namespace ElmImports.Manifest

open Json

def sourceDirectoriesKey : Text := "source-directories".toList

/-! ## The wanted member -/

def texts? : List Token → Option (List Text × List Token)
  | .string pieces :: .closeArray :: ts => (text? pieces).map fun t => ([t], ts)
  | .string pieces :: .comma :: ts =>
    match text? pieces, texts? ts with
    | some t, some (more, ts) => some (t :: more, ts)
    | _, _ => none
  | _ => none

def directories? : List Token → Option (Option (List Text) × List Token)
  | .null :: ts => some (none, ts)
  | .openArray :: .closeArray :: ts => some (some [], ts)
  | .openArray :: ts => (texts? ts).map fun (dirs, ts) => (some dirs, ts)
  | _ => none

theorem length_texts? {ts rest : List Token} {dirs : List Text} (h : texts? ts = some (dirs, rest)) :
    rest.length ≤ ts.length := by
  fun_induction texts? ts generalizing dirs rest with
  | case1 pieces ts =>
    obtain ⟨_, _, hp⟩ := Option.map_eq_some_iff.1 h
    cases hp
    simp only [List.length_cons]
    omega
  | case2 pieces ts t more ts' hmore _ ih =>
    cases h
    have := ih hmore
    simp only [List.length_cons]
    omega
  | case3 => cases h
  | case4 => cases h

theorem length_directories? {ts rest : List Token} {dirs : Option (List Text)}
    (h : directories? ts = some (dirs, rest)) : rest.length ≤ ts.length := by
  unfold directories? at h
  split at h
  case h_3 =>
    obtain ⟨⟨_, _⟩, hts, hp⟩ := Option.map_eq_some_iff.1 h
    cases hp
    have := length_texts? hts
    simp only [List.length_cons]
    omega
  case h_4 => cases h
  all_goals
    cases h
    simp only [List.length_cons]
    omega

/-! ## Objects -/

/-- The members of an object from here to its end, when `found` is what its earlier members gave. -/
def members? (found : Option (Option (List Text))) : List Token → Option (Option (List Text) × List Token)
  | .string pieces :: .colon :: ts =>
    match text? pieces with
    | none => none
    | some key =>
      if key = sourceDirectoriesKey then
        if found.isSome then none
        else match _hdirs : directories? ts with
          | some (dirs, .comma :: ts) => members? (some dirs) ts
          | some (dirs, .closeObject :: ts) => some (dirs, ts)
          | _ => none
      else match _hvalue : afterValue? [] ts with
        | some (.comma :: ts) => members? found ts
        | some (.closeObject :: ts) => some (found.getD none, ts)
        | _ => none
  | _ => none
termination_by ts => ts.length
decreasing_by
  · have := length_directories? _hdirs
    simp only [List.length_cons] at this ⊢
    omega
  · have := length_afterValue? _hvalue
    simp only [List.length_cons] at this ⊢
    omega

/-- The source directories that a manifest declares; `none` if it is no manifest. -/
def read? (content : Text) : Option (List Text) := do
  let ts ← tokens? content
  let (dirs, rest) ← match ts with
    | .openObject :: .closeObject :: ts => some (none, ts)
    | .openObject :: ts => members? none ts
    | .openArray :: ts => match directories? ts with
      | some (dirs, .closeArray :: ts) => some (dirs, ts)
      | _ => none
    | _ => none
  if rest.isEmpty then dirs.getD [] else none

end ElmImports.Manifest
