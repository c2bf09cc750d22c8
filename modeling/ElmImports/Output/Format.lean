import ElmImports.Text.Blank

/-!
# Output formats
-/

namespace ElmImports

inductive OutputFormat
  | json
  | text
  | dot
  deriving DecidableEq

namespace OutputFormat

def name : OutputFormat → Text
  | json => "json".toList
  | text => "text".toList
  | dot => "dot".toList

def ofName? (t : Text) : Option OutputFormat :=
  [json, text, dot].find? (·.name = t)

/-- A format's name in letters of either case. -/
def parse? (t : Text) : Option OutputFormat :=
  ofName? t.lowerAscii

def unsupported (t : Text) : Text :=
  "unsupported output format: ".toList ++ t

end OutputFormat

end ElmImports
