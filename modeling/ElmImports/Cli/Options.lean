import ElmImports.Text.Blank

/-!
# Reading options

A command takes flags, options with a value, and possibly one operand. An option's value stands behind an
equals sign or is the next argument, unless that begins with a dash. A value is checked as soon as the next
flag, option or operand is met, or at the end; an argument that means nothing is refused before that. Behind
two dashes everything is an operand.
-/

namespace ElmImports.Cli

inductive Stop
  | help
  | version
  /-- Nothing says what to do. -/
  | noCommand
  | missingArgument
  | unknownArgument
  | unknownCommand
  | badValue
  | badNumber
  /-- A flag or an option is given twice. -/
  | conflict
  /-- A flag is given a value. -/
  | tooManyValues
  deriving DecidableEq

/-- Asking for help or for the version is no mistake. -/
def Stop.exitCode : Stop → Nat
  | help | version => 0
  | _ => 2

structure Accepted where
  flags : List Text
  options : List Text
  operand : Bool
  /-- The fault of a value given for an option, or of the operand, whose name is empty. -/
  fault? : Text → Text → Option Stop

structure Given where
  flags : List Text := []
  values : List (Text × Text) := []
  /-- The option or operand met last, and its value once that is known; neither has been checked. -/
  pending : Option (Text × Option Text) := none
  hasOperand : Bool := false

namespace Given

def enter (g : Given) (a : Accepted) (name value : Text) : Except Stop Given :=
  if (g.values.lookup name).isSome then .error .conflict
  else match a.fault? name value with
    | some stop => .error stop
    | none => .ok { g with values := g.values ++ [(name, value)] }

def settle (g : Given) (a : Accepted) : Except Stop Given :=
  match g.pending with
  | none => .ok g
  | some (_, none) => .error .badValue
  | some (name, some value) => { g with pending := none }.enter a name value

def long (word : Text) : Text × Option Text :=
  let (name, rest) := (word.drop 2).span (· != '=')
  (name, rest.tail?)

def addLong (g : Given) (a : Accepted) (name : Text) (value? : Option Text) : Except Stop Given :=
  if name = "help".toList ∨ a.flags.contains name then
    match value? with
    | some _ => .error .tooManyValues
    | none => do
      let g ← g.settle a
      if name = "help".toList then throw .help
      else if g.flags.contains name then throw .conflict
      else pure { g with flags := g.flags ++ [name] }
  else if a.options.contains name then do
    let g ← g.settle a
    match value? with
    | some value => g.enter a name value
    | none => pure { g with pending := some (name, none) }
  else .error .unknownArgument

def addShort (g : Given) (a : Accepted) (word : Text) : Except Stop Given :=
  if word.tail.head? = some 'h' then do
    let _ ← g.settle a
    throw .help
  else .error .unknownArgument

def addOperand (g : Given) (a : Accepted) (word : Text) : Except Stop Given :=
  if a.operand ∧ ! g.hasOperand then do
    pure { ← g.settle a with pending := some ([], some word), hasOperand := true }
  else .error .unknownArgument

/-- A word that neither is two dashes nor stands behind them. -/
def add (g : Given) (a : Accepted) (word : Text) : Except Stop Given :=
  if "--".toList.isPrefixOf word then
    let (name, value?) := long word
    g.addLong a name value?
  else if word.head? = some '-' ∧ word.length > 1 then g.addShort a word
  else match g.pending with
    | some (name, none) => .ok { g with pending := some (name, some word) }
    | _ => g.addOperand a word

def addAll (g : Given) (a : Accepted) (words : List Text) : Except Stop Given := do
  let (before, behind) := words.span (· != "--".toList)
  let g ← before.foldlM (·.add a ·) g
  let g ← behind.tail.foldlM (·.addOperand a ·) g
  g.settle a

end Given

def Accepted.read (a : Accepted) (words : List Text) : Except Stop Given :=
  ({} : Given).addAll a words

end ElmImports.Cli
