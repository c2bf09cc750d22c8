import ElmImports.Json.Token

/-!
# The extent of a JSON value

A value that nobody wants is passed over without building it. The arrays and objects that are open are kept
on a stack, so that nesting may be of any depth.
-/

namespace ElmImports.Json

inductive Frame
  | array
  | object

mutual

/-- What follows the value that begins here and everything that `frames` leave open. -/
def afterValue? (frames : List Frame) : List Token → Option (List Token)
  | .null :: ts | .boolean :: ts | .number :: ts | .string _ :: ts => afterItem? frames ts
  | .openArray :: .closeArray :: ts => afterItem? frames ts
  | .openArray :: ts => afterValue? (.array :: frames) ts
  | .openObject :: .closeObject :: ts => afterItem? frames ts
  | .openObject :: .string _ :: .colon :: ts => afterValue? (.object :: frames) ts
  | _ => none

def afterItem? : List Frame → List Token → Option (List Token)
  | [], ts => some ts
  | .array :: frames, .comma :: ts => afterValue? (.array :: frames) ts
  | .array :: frames, .closeArray :: ts => afterItem? frames ts
  | .object :: frames, .comma :: .string _ :: .colon :: ts => afterValue? (.object :: frames) ts
  | .object :: frames, .closeObject :: ts => afterItem? frames ts
  | _, _ => none

end

mutual

theorem length_afterValue? {frames : List Frame} {ts rest : List Token} (h : afterValue? frames ts = some rest) :
    rest.length < ts.length := by
  unfold afterValue? at h
  split at h
  case h_9 => cases h
  case h_6 ts _ =>
    have := length_afterValue? h
    simp only [List.length_cons]
    omega
  case h_8 =>
    have := length_afterValue? h
    simp only [List.length_cons]
    omega
  all_goals
    have := length_afterItem? h
    simp only [List.length_cons]
    omega

theorem length_afterItem? {frames : List Frame} {ts rest : List Token} (h : afterItem? frames ts = some rest) :
    rest.length ≤ ts.length := by
  unfold afterItem? at h
  split at h
  case h_1 => cases h; exact Nat.le_refl _
  case h_6 => cases h
  case h_2 | h_4 =>
    have := length_afterValue? h
    simp only [List.length_cons]
    omega
  all_goals
    have := length_afterItem? h
    simp only [List.length_cons]
    omega

end

end ElmImports.Json
