import ElmImports.Text.Blank

/-!
# Scanning for the import block

A scanner is fed the lines of a file and records its import lines. Their block begins at the first of them and
ends at the first line after it that is none of them, is not incidental and opens no comment. A block comment
that opens at the start of a line and does not end with that line suspends the scanner up to the first later
line that ends one.
-/

namespace ElmImports

inductive Phase
  | awaitingModule
  | awaitingImports
  | readingImports
  deriving DecidableEq

inductive ScanState
  | outside (phase : Phase)
  | inComment (resume : Phase)
  | done
  deriving DecidableEq

/-! ## Kinds of lines -/

def isModuleLine (line : Text) : Bool :=
  "module ".toList.isPrefixOf line || "port module ".toList.isPrefixOf line ||
    "effect module ".toList.isPrefixOf line

def isImportLine (line : Text) : Bool :=
  "import ".toList.isPrefixOf line

/-- Indented lines, blank lines and line comments, which do not end the import block. -/
def isIncidental (line : Text) : Bool :=
  line.head? == some ' ' || line.head? == some '\t' || line.all isBlank || "--".toList.isPrefixOf line

def opensWithComment (line : Text) : Bool :=
  "\x7b-".toList.isPrefixOf line

def endsComment (line : Text) : Bool :=
  "-\x7d".toList.isSuffixOf line

/-- A comment opens with the line and is not ended by what follows its two opening characters. -/
def leavesCommentOpen (line : Text) : Bool :=
  opensWithComment line && ! endsComment (line.drop 2)

/-! ## The scanner -/

def afterOther (phase : Phase) (line : Text) : ScanState :=
  if leavesCommentOpen line then .inComment phase else .outside phase

def ScanState.next : ScanState → Text → ScanState
  | .done, _ => .done
  | .inComment phase, line => if endsComment line then .outside phase else .inComment phase
  | .outside .awaitingModule, line =>
    if isModuleLine line then .outside .awaitingImports
    else if isImportLine line then .outside .readingImports
    else afterOther .awaitingModule line
  | .outside .awaitingImports, line =>
    if isImportLine line then .outside .readingImports else afterOther .awaitingImports line
  | .outside .readingImports, line =>
    if isImportLine line || isIncidental line then .outside .readingImports
    else if opensWithComment line then afterOther .readingImports line
    else .done

def ScanState.records : ScanState → Text → Bool
  | .outside _, line => isImportLine line
  | _, _ => false

structure Scanner where
  state : ScanState := .outside .awaitingModule
  recorded : Array Text := #[]

namespace Scanner

def feed (s : Scanner) (line : Text) : Scanner where
  state := s.state.next line
  recorded := if s.state.records line then s.recorded.push line else s.recorded

def isDone (s : Scanner) : Bool :=
  s.state == .done

def imports (s : Scanner) : List Text :=
  s.recorded.toList

theorem isDone_iff {s : Scanner} : s.isDone = true ↔ s.state = .done := by
  simp [isDone]

theorem imports_feed (s : Scanner) (line : Text) :
    (s.feed line).imports = s.imports ++ if s.state.records line then [line] else [] := by
  unfold feed imports
  dsimp only
  split <;> simp

end Scanner

end ElmImports
