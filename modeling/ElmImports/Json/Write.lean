import ElmImports.Path.Basic
import ElmImports.Output.Sink

/-!
# Dependencies as a JSON array

The array is indented by two spaces, a path to a line, and ends with a line feed. In strings quotes,
backslashes and control characters are escaped, control characters by their short names where they have one.
-/

namespace ElmImports.Json

def hexDigit (n : Nat) : Char :=
  if n < 10 then Char.ofNat ('0'.toNat + n) else Char.ofNat ('a'.toNat + (n - 10))

def escape (c : Char) : Text :=
  match c with
  | '"' => ['\\', '"']
  | '\\' => ['\\', '\\']
  | '\x08' => ['\\', 'b']
  | '\x0c' => ['\\', 'f']
  | '\n' => ['\\', 'n']
  | '\r' => ['\\', 'r']
  | '\t' => ['\\', 't']
  | c => if c.toNat < 0x20 then "\\u00".toList ++ [hexDigit (c.toNat / 16), hexDigit (c.toNat % 16)] else [c]

def quoted (t : Text) : Text :=
  '"' :: t.flatMap escape ++ ['"']

/-- The items after the first `separator`, up to the first path that has no text, and whether all have one. -/
def items (separator : Text) : List Path → Text × Bool
  | [] => ("\n]".toList, true)
  | p :: ps => match Utf8.decode? p.bytes with
    | some t =>
      let (more, complete) := items ",\n  ".toList ps
      (separator ++ quoted t ++ more, complete)
    | none => (separator, false)

def array (paths : List Path) : Text × Bool :=
  match paths with
  | [] => ("[]".toList, true)
  | _ => let (t, complete) := items "\n  ".toList paths; ('[' :: t, complete)

def writeArray (limit : Option Nat) (paths : List Path) : Written :=
  let (t, complete) := array paths
  match Written.ofText limit .fullInJson t with
  | ⟨received, none⟩ =>
    if complete then Written.ofText limit .full (t ++ ['\n']) else ⟨received, some .pathNotText⟩
  | failed => failed

end ElmImports.Json
