import ElmImports.Text.Blank

/-!
# JSON tokens

Text is cut into the tokens of JSON, which refuses any character that belongs to none. A string token keeps
its escaped code units apart from its characters: whether surrogates pair up matters only to a reader that
wants its text.
-/

namespace ElmImports.Json

/-- A character as it stands, or one UTF-16 unit given by its four hexadecimal digits. -/
inductive StringPiece
  | char (c : Char)
  | codeUnit (n : Nat)

inductive Token
  | openArray
  | closeArray
  | openObject
  | closeObject
  | comma
  | colon
  | null
  | boolean
  | number
  | string (pieces : List StringPiece)

/-! ## Strings -/

def hexDigit? (c : Char) : Option Nat :=
  if c.isDigit then some (c.toNat - '0'.toNat)
  else if 'a' ≤ c ∧ c ≤ 'f' then some (c.toNat - 'a'.toNat + 10)
  else if 'A' ≤ c ∧ c ≤ 'F' then some (c.toNat - 'A'.toNat + 10)
  else none

def hexValue? (digits : Text) : Option Nat :=
  digits.foldlM (fun n c => (hexDigit? c).map (16 * n + ·)) 0

def escaped? : Char → Option Char
  | '"' => some '"'
  | '\\' => some '\\'
  | '/' => some '/'
  | 'b' => some '\x08'
  | 'f' => some '\x0c'
  | 'n' => some '\n'
  | 'r' => some '\r'
  | 't' => some '\t'
  | _ => none

def stringPieces? : Text → Option (List StringPiece × Text)
  | [] => none
  | '"' :: rest => some ([], rest)
  | '\\' :: 'u' :: a :: b :: c :: d :: rest =>
    match hexValue? [a, b, c, d], stringPieces? rest with
    | some n, some (pieces, rest) => some (.codeUnit n :: pieces, rest)
    | _, _ => none
  | '\\' :: c :: rest =>
    match escaped? c, stringPieces? rest with
    | some c, some (pieces, rest) => some (.char c :: pieces, rest)
    | _, _ => none
  | c :: rest =>
    if c.toNat < 0x20 ∨ c = '\\' then none
    else (stringPieces? rest).map fun (pieces, rest) => (.char c :: pieces, rest)

def isHighSurrogate (n : Nat) : Bool :=
  0xD800 ≤ n && n < 0xDC00

def isLowSurrogate (n : Nat) : Bool :=
  0xDC00 ≤ n && n < 0xE000

/-- The text of a string. Surrogates must come in pairs. -/
def text? : List StringPiece → Option Text
  | [] => some []
  | .char c :: rest => (text? rest).map (c :: ·)
  | .codeUnit high :: .codeUnit low :: rest =>
    if isHighSurrogate high then
      if isLowSurrogate low then
        (text? rest).map (Char.ofNat (0x10000 + (high - 0xD800) * 0x400 + (low - 0xDC00)) :: ·)
      else none
    else if isLowSurrogate high then none
    else (text? (.codeUnit low :: rest)).map (Char.ofNat high :: ·)
  | .codeUnit n :: rest =>
    if isHighSurrogate n ∨ isLowSurrogate n then none else (text? rest).map (Char.ofNat n :: ·)

/-! ## Numbers -/

def afterDigits? : Text → Option Text
  | c :: rest => if c.isDigit then some (rest.dropWhile Char.isDigit) else none
  | [] => none

/-- What follows the digits before the point, of which a leading zero is the only one. -/
def afterInteger? : Text → Option Text
  | '0' :: rest => some rest
  | t => afterDigits? t

def afterFraction? : Text → Option Text
  | '.' :: rest => afterDigits? rest
  | t => some t

def afterExponent? : Text → Option Text
  | c :: rest =>
    if c = 'e' ∨ c = 'E' then
      match rest with
      | sign :: digits => if sign = '+' ∨ sign = '-' then afterDigits? digits else afterDigits? rest
      | [] => none
    else some (c :: rest)
  | [] => some []

def afterNumber? (t : Text) : Option Text := do
  afterExponent? (← afterFraction? (← afterInteger? t))

/-! ## Tokens -/

def isSpace (c : Char) : Bool :=
  c == ' ' || c == '\t' || c == '\n' || c == '\r'

def token? (c : Char) (rest : Text) : Option (Token × Text) :=
  match c with
  | '[' => some (.openArray, rest)
  | ']' => some (.closeArray, rest)
  | '\x7b' => some (.openObject, rest)
  | '\x7d' => some (.closeObject, rest)
  | ',' => some (.comma, rest)
  | ':' => some (.colon, rest)
  | '"' => (stringPieces? rest).map fun (pieces, rest) => (.string pieces, rest)
  | '-' => (afterNumber? rest).map (.number, ·)
  | 'n' => ("ull".toList.isPrefixOf? rest).map (.null, ·)
  | 't' => ("rue".toList.isPrefixOf? rest).map (.boolean, ·)
  | 'f' => ("alse".toList.isPrefixOf? rest).map (.boolean, ·)
  | _ => (afterNumber? (c :: rest)).map (.number, ·)

/-! ## Tokens use up text -/

theorem length_stringPieces? {t rest : Text} {pieces : List StringPiece}
    (h : stringPieces? t = some (pieces, rest)) : rest.length < t.length := by
  fun_induction stringPieces? t generalizing pieces rest with
  | case1 => cases h
  | case2 => cases h; simp
  | case3 a b c d tail n ps r hps hn ih =>
    cases h
    have := ih hps
    simp only [List.length_cons]
    omega
  | case4 => cases h
  | case5 c tail _ c' ps r hps hc ih =>
    cases h
    have := ih hps
    simp only [List.length_cons]
    omega
  | case6 => cases h
  | case7 => cases h
  | case8 c tail _ _ _ _ ih =>
    obtain ⟨⟨ps, r⟩, hps, hp⟩ := Option.map_eq_some_iff.1 h
    cases hp
    have := ih hps
    simp only [List.length_cons]
    omega

theorem length_afterDigits? {t rest : Text} (h : afterDigits? t = some rest) : rest.length < t.length := by
  unfold afterDigits? at h
  split at h
  · rename_i c tail
    split at h
    · cases h
      have := (List.dropWhile_suffix (l := tail) Char.isDigit).length_le
      simp only [List.length_cons]
      omega
    · cases h
  · cases h

theorem length_afterInteger? {t rest : Text} (h : afterInteger? t = some rest) : rest.length < t.length := by
  unfold afterInteger? at h
  split at h
  · cases h; simp
  · exact length_afterDigits? h

theorem length_afterFraction? {t rest : Text} (h : afterFraction? t = some rest) : rest.length ≤ t.length := by
  unfold afterFraction? at h
  split at h
  · have := length_afterDigits? h
    simp only [List.length_cons]
    omega
  · cases h; exact Nat.le_refl _

theorem length_afterExponent? {t rest : Text} (h : afterExponent? t = some rest) : rest.length ≤ t.length := by
  unfold afterExponent? at h
  split at h
  · split at h
    · split at h
      · split at h
        · have := length_afterDigits? h
          simp only [List.length_cons]
          omega
        · have := length_afterDigits? h
          simp only [List.length_cons] at this ⊢
          omega
      · cases h
    · cases h; exact Nat.le_refl _
  · cases h; exact Nat.le_refl _

theorem length_afterNumber? {t rest : Text} (h : afterNumber? t = some rest) : rest.length < t.length := by
  simp only [afterNumber?, Option.bind_eq_bind, Option.bind_eq_some_iff] at h
  obtain ⟨u, hu, v, hv, hrest⟩ := h
  have := length_afterInteger? hu
  have := length_afterFraction? hv
  have := length_afterExponent? hrest
  omega

theorem length_of_isPrefixOf? {word t rest : Text} (h : word.isPrefixOf? t = some rest) :
    rest.length ≤ t.length := by
  induction word generalizing t with
  | nil => cases h; exact Nat.le_refl _
  | cons c word ih =>
    cases t with
    | nil => cases h
    | cons d t =>
      change (if c == d then word.isPrefixOf? t else none) = some rest at h
      split at h
      · have := ih h
        simp only [List.length_cons]
        omega
      · cases h

theorem length_token? {c : Char} {t rest : Text} {token : Token} (h : token? c t = some (token, rest)) :
    rest.length ≤ t.length := by
  unfold token? at h
  split at h
  case h_7 =>
    obtain ⟨⟨ps, r⟩, hps, hp⟩ := Option.map_eq_some_iff.1 h
    cases hp
    exact Nat.le_of_lt (length_stringPieces? hps)
  case h_8 =>
    obtain ⟨r, hr, hp⟩ := Option.map_eq_some_iff.1 h
    cases hp
    exact Nat.le_of_lt (length_afterNumber? hr)
  case h_12 =>
    obtain ⟨r, hr, hp⟩ := Option.map_eq_some_iff.1 h
    cases hp
    exact Nat.le_of_lt_succ (length_afterNumber? hr)
  case h_9 | h_10 | h_11 =>
    obtain ⟨r, hr, hp⟩ := Option.map_eq_some_iff.1 h
    cases hp
    exact length_of_isPrefixOf? hr
  all_goals cases h; exact Nat.le_refl _

def tokens? : Text → Option (List Token)
  | [] => some []
  | c :: rest =>
    if isSpace c then tokens? rest
    else match _htoken : token? c rest with
      | some (token, rest) => (tokens? rest).map (token :: ·)
      | none => none
termination_by t => t.length
decreasing_by
  · simp
  · have := length_token? _htoken
    simp only [List.length_cons]
    omega

end ElmImports.Json
