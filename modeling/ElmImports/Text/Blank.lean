/-!
# Text and blank characters

Text is a list of characters. A character is blank when it has the Unicode property White_Space;
trimming and splitting into words cut at blank characters and nowhere else.
-/

namespace ElmImports

abbrev Text := List Char

/-- The character has the Unicode property White_Space. -/
def isBlank (c : Char) : Bool :=
  let n := c.toNat
  (0x09 ≤ n && n ≤ 0x0D) || n == 0x20 || n == 0x85 || n == 0xA0 || n == 0x1680 ||
    (0x2000 ≤ n && n ≤ 0x200A) || n == 0x2028 || n == 0x2029 || n == 0x202F || n == 0x205F || n == 0x3000

namespace Text

def trimStart (t : Text) : Text :=
  t.dropWhile isBlank

def trimEnd (t : Text) : Text :=
  (t.reverse.dropWhile isBlank).reverse

def trim (t : Text) : Text :=
  t.trimStart.trimEnd

def firstWord? (t : Text) : Option Text :=
  match t.trimStart.takeWhile (! isBlank ·) with
  | [] => none
  | word => some word

def lowerAscii (t : Text) : Text :=
  t.map Char.toLower

/-- What is left of `t` behind `word` and one blank character. -/
def afterKeyword? (word t : Text) : Option Text :=
  match word.isPrefixOf? t with
  | some (c :: rest) => if isBlank c then some rest else none
  | _ => none

/-! ## Words -/

theorem firstWord?_eq_some {t w : Text} (h : t.firstWord? = some w) : w ≠ [] ∧ ∀ c ∈ w, isBlank c = false := by
  unfold firstWord? at h
  split at h
  · cases h
  · rename_i hne
    cases h
    refine ⟨fun h => hne (by simpa using h), fun c hc => ?_⟩
    have := List.all_takeWhile (p := fun c => ! isBlank c) (l := t.trimStart)
    simpa using List.all_eq_true.mp this c hc

end Text

end ElmImports
