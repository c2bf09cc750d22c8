import ElmImports.Json.Token
import ElmImports.Text.Utf8

/-!
# TOML strings

Basic strings know escapes and literal strings do not; either may run over several lines when its quotes are
tripled. Control characters other than the tab stand in none of them. A string that runs over several lines
drops a line feed at its very start, has plain line feeds for its line ends, and may end with one or two
quotes of its own.
-/

namespace ElmImports.Toml

def isControl (c : Char) : Bool :=
  (c.toNat < 0x20 && c != '\t') || c.toNat == 0x7F

def isSpace (c : Char) : Bool :=
  c == ' ' || c == '\t'

def afterNewline? : Text → Option Text
  | '\n' :: rest => some rest
  | '\r' :: '\n' :: rest => some rest
  | _ => none

def scalar? (digits : Text) : Option Char := do
  let n ← Json.hexValue? digits
  if n.isValidChar then some (Char.ofNat n) else none

def escaped? : Char → Option Char
  | 'b' => some '\x08'
  | 't' => some '\t'
  | 'n' => some '\n'
  | 'f' => some '\x0c'
  | 'r' => some '\r'
  | '"' => some '"'
  | '\\' => some '\\'
  | _ => none

/-! ## On one line -/

def basicString? : Text → Option (Text × Text)
  | '"' :: rest => some ([], rest)
  | '\\' :: 'u' :: a :: b :: c :: d :: rest =>
    match scalar? [a, b, c, d], basicString? rest with
    | some c, some (t, rest) => some (c :: t, rest)
    | _, _ => none
  | '\\' :: 'U' :: a :: b :: c :: d :: e :: f :: g :: h :: rest =>
    match scalar? [a, b, c, d, e, f, g, h], basicString? rest with
    | some c, some (t, rest) => some (c :: t, rest)
    | _, _ => none
  | '\\' :: c :: rest =>
    match escaped? c, basicString? rest with
    | some c, some (t, rest) => some (c :: t, rest)
    | _, _ => none
  | c :: rest =>
    if isControl c ∨ c = '\\' then none else (basicString? rest).map fun (t, rest) => (c :: t, rest)
  | [] => none

def literalString? : Text → Option (Text × Text)
  | '\'' :: rest => some ([], rest)
  | c :: rest => if isControl c then none else (literalString? rest).map fun (t, rest) => (c :: t, rest)
  | [] => none

/-! ## On several lines -/

def quotes (quote : Char) (t : Text) : Nat :=
  ((t.take 6).takeWhile (· = quote)).length

def closing? (quote : Char) (t : Text) : Option (Text × Text) :=
  let n := quotes quote t
  if 3 ≤ n ∧ n ≤ 5 then some (List.replicate (n - 3) quote, t.drop n) else none

inductive LineMode
  | inText
  /-- Behind a backslash, with nothing but spaces before the line end. -/
  | afterBackslash
  /-- Behind a line end that a backslash covers, with the space at the start of the next lines. -/
  | inMargin
  deriving DecidableEq

/-- The text of several lines in basic quotes, and what follows them. Each step uses up a character, so that
`fuel` need be no more than the length of the text. -/
def basicLines? : Nat → LineMode → Text → Option (Text × Text)
  | 0, _, _ => none
  | fuel + 1, .afterBackslash, t => match t, afterNewline? t with
    | _, some rest => basicLines? fuel .inMargin rest
    | c :: rest, none => if isSpace c then basicLines? fuel .afterBackslash rest else none
    | [], none => none
  | fuel + 1, mode, t => match t, afterNewline? t with
    | _, some rest =>
      if mode = .inMargin then basicLines? fuel .inMargin rest
      else (basicLines? fuel .inText rest).map fun (t, rest) => ('\n' :: t, rest)
    | '\\' :: 'u' :: a :: b :: c :: d :: rest, none =>
      match scalar? [a, b, c, d], basicLines? fuel .inText rest with
      | some c, some (t, rest) => some (c :: t, rest)
      | _, _ => none
    | '\\' :: 'U' :: a :: b :: c :: d :: e :: f :: g :: h :: rest, none =>
      match scalar? [a, b, c, d, e, f, g, h], basicLines? fuel .inText rest with
      | some c, some (t, rest) => some (c :: t, rest)
      | _, _ => none
    | '\\' :: c :: rest, none =>
      match escaped? c with
      | some c => (basicLines? fuel .inText rest).map fun (t, rest) => (c :: t, rest)
      | none => basicLines? fuel .afterBackslash (c :: rest)
    | '"' :: rest, none =>
      if quotes '"' t < 3 then (basicLines? fuel .inText rest).map fun (t, rest) => ('"' :: t, rest)
      else closing? '"' t
    | c :: rest, none =>
      if isControl c ∨ c = '\\' then none
      else if mode = .inMargin ∧ isSpace c then basicLines? fuel .inMargin rest
      else (basicLines? fuel .inText rest).map fun (t, rest) => (c :: t, rest)
    | [], none => none

def literalLines? : Nat → Text → Option (Text × Text)
  | 0, _ => none
  | fuel + 1, t => match t, afterNewline? t with
    | _, some rest => (literalLines? fuel rest).map fun (t, rest) => ('\n' :: t, rest)
    | '\'' :: rest, none =>
      if quotes '\'' t < 3 then (literalLines? fuel rest).map fun (t, rest) => ('\'' :: t, rest)
      else closing? '\'' t
    | c :: rest, none =>
      if isControl c then none else (literalLines? fuel rest).map fun (t, rest) => (c :: t, rest)
    | [], none => none

/-! ## Any string -/

def dropNewline (t : Text) : Text :=
  (afterNewline? t).getD t

def string? : Text → Option (Text × Text)
  | '"' :: '"' :: '"' :: rest => basicLines? (rest.length + 1) .inText (dropNewline rest)
  | '"' :: rest => basicString? rest
  | '\'' :: '\'' :: '\'' :: rest => literalLines? (rest.length + 1) (dropNewline rest)
  | '\'' :: rest => literalString? rest
  | _ => none

end ElmImports.Toml
