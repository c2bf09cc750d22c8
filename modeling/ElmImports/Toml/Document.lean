import ElmImports.Toml.Scalar
import ElmImports.Toml.String

/-!
# TOML documents

A document is a list of statements: headers, which open a table, and entries, which add a value to the table
that is open. Headers of arrays of tables are refused, since no document that is read here has a use for them.
-/

namespace ElmImports.Toml

def nestingLimit : Nat := 80

def dropSpaces (t : Text) : Text :=
  t.dropWhile isSpace

/-- What follows spaces, line ends and comments, or the character that cannot stand there. -/
def dropFiller : Bool → Text → Text
  | _, [] => []
  | _, '\n' :: rest => dropFiller false rest
  | _, '\r' :: '\n' :: rest => dropFiller false rest
  | false, c :: rest => if isSpace c then dropFiller false rest else if c = '#' then dropFiller true rest else c :: rest
  | true, c :: rest => if isControl c then c :: rest else dropFiller true rest

/-! ## Keys -/

def isBareKeyChar (c : Char) : Bool :=
  c.isAlphanum || c == '_' || c == '-'

def keyPart? : Text → Option (Text × Text)
  | '"' :: rest => basicString? rest
  | '\'' :: rest => literalString? rest
  | t => match t.span isBareKeyChar with
    | ([], _) => none
    | (part, rest) => some (part, rest)

def key? : Nat → Text → Option (List Text × Text × Text)
  | 0, _ => none
  | parts + 1, t => do
    let (part, rest) ← keyPart? (dropSpaces t)
    match dropSpaces rest with
    | '.' :: rest =>
      let (path, last, rest) ← key? parts rest
      pure (part :: path, last, rest)
    | rest => pure ([], part, rest)

/-! ## Values -/

mutual

/-- A value, and what follows it. Every call but one in two uses up a character, so that `fuel` need be no more
than twice the length of the text; `depth` is how much deeper values may be nested. -/
def value? : Nat → Nat → Text → Option (Value × Text)
  | 0, _, _ => none
  | fuel + 1, depth, t => match t with
    | '"' :: _ | '\'' :: _ => (string? t).map fun (s, rest) => (.string s, rest)
    | '[' :: rest => match depth with
      | 0 => none
      | depth + 1 => (items? fuel depth (dropFiller false rest)).map fun (vs, rest) => (.array vs, rest)
    | '\x7b' :: rest => match depth with
      | 0 => none
      | depth + 1 => match dropSpaces rest with
        | '\x7d' :: rest => some (.table .inline [], rest)
        | rest => (entries? fuel depth [] rest).map fun (es, rest) => (.table .inline es, rest)
    | _ => scalarValue? t

def items? : Nat → Nat → Text → Option (List Value × Text)
  | 0, _, _ => none
  | _, _, ']' :: rest => some ([], rest)
  | fuel + 1, depth, t => do
    let (v, rest) ← value? fuel depth t
    match dropFiller false rest with
    | ',' :: rest =>
      let (vs, rest) ← items? fuel depth (dropFiller false rest)
      pure (v :: vs, rest)
    | ']' :: rest => pure ([v], rest)
    | _ => none

def entries? : Nat → Nat → Table → Text → Option (Table × Text)
  | 0, _, _, _ => none
  | fuel + 1, depth, table, t => do
    let (path, last, rest) ← key? (nestingLimit - 1) t
    match rest with
    | '=' :: rest =>
      let (v, rest) ← value? fuel depth (dropSpaces rest)
      let table ← table.add? last v path
      match dropSpaces rest with
      | ',' :: rest => entries? fuel depth table rest
      | '\x7d' :: rest => pure (table, rest)
      | _ => none
    | _ => none

end

/-! ## Statements -/

structure Document where
  root : Table := []
  opened : List Text := []

def afterLine? (t : Text) : Option Text :=
  let rest := match dropSpaces t with
    | '#' :: rest => rest.dropWhile (! isControl ·)
    | rest => rest
  if rest.isEmpty then some [] else afterNewline? rest

def Document.statement? (doc : Document) (t : Text) : Option (Document × Text) := do
  match t with
  | '[' :: rest =>
    let (path, last, rest) ← key? (nestingLimit - 1) rest
    match rest with
    | ']' :: rest =>
      let root ← doc.root.openHeader? last path
      pure (⟨root, path ++ [last]⟩, ← afterLine? rest)
    | _ => none
  | _ =>
    let (path, last, rest) ← key? (nestingLimit - 1) t
    match rest with
    | '=' :: rest =>
      let (v, rest) ← value? (2 * rest.length + 2) (nestingLimit - 1) (dropSpaces rest)
      let root ← doc.root.changeAt? (·.add? last v path) doc.opened
      pure ({ doc with root }, ← afterLine? rest)
    | _ => none

def Document.statements? : Nat → Document → Text → Option Document
  | 0, doc, t => if t.isEmpty then some doc else none
  | fuel + 1, doc, t => match dropFiller false t with
    | [] => some doc
    | t => do
      let (doc, rest) ← doc.statement? t
      statements? fuel doc rest

def document? (t : Text) : Option Table :=
  let t := match t with
    | '\uFEFF' :: rest => rest
    | _ => t
  (Document.statements? t.length {} t).map Document.root

end ElmImports.Toml
