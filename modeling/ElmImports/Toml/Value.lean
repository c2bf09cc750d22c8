import ElmImports.Text.Blank

/-!
# TOML values and tables

A table remembers how it came about, since that decides what may be added to it later: dotted keys may go on
in a table that dotted keys made, a header may take over a table that only longer headers implied, and an
inline table is closed. Of numbers with a point and of dates only the fact is kept.
-/

namespace ElmImports.Toml

inductive TableOrigin
  /-- Opened by its own header. -/
  | header
  /-- Implied by a header that goes through it. -/
  | implied
  /-- Made by a dotted key. -/
  | dotted
  /-- Written between braces. -/
  | inline
  deriving DecidableEq

inductive Value
  | string (t : Text)
  | integer (n : Int)
  | boolean (b : Bool)
  | float
  | dateTime
  | array (items : List Value)
  | table (origin : TableOrigin) (entries : List (Text × Value))

abbrev Table := List (Text × Value)

namespace Table

def set (t : Table) (key : Text) (v : Value) : Table :=
  t.map fun (k, old) => if k = key then (k, v) else (k, old)

/-- Adds a value under a dotted key; the last part must be new. -/
def add? (key : Text) (v : Value) : List Text → Table → Option Table
  | [], t => if (t.lookup key).isSome then none else some (t ++ [(key, v)])
  | part :: path, t => match t.lookup part with
    | none => (add? key v path []).map fun sub => t ++ [(part, .table .dotted sub)]
    | some (.table .dotted sub) => (add? key v path sub).map fun sub => t.set part (.table .dotted sub)
    | some _ => none

def openHeader? (key : Text) : List Text → Table → Option Table
  | [], t => match t.lookup key with
    | none => some (t ++ [(key, .table .header [])])
    | some (.table .implied sub) => some (t.set key (.table .header sub))
    | some _ => none
  | part :: path, t => match t.lookup part with
    | none => (openHeader? key path []).map fun sub => t ++ [(part, .table .implied sub)]
    | some (.table .inline _) => none
    | some (.table origin sub) => (openHeader? key path sub).map fun sub => t.set part (.table origin sub)
    | some _ => none

def changeAt? (f : Table → Option Table) : List Text → Table → Option Table
  | [], t => f t
  | part :: path, t => match t.lookup part with
    | some (.table origin sub) => (changeAt? f path sub).map fun sub => t.set part (.table origin sub)
    | _ => none

end Table

end ElmImports.Toml
