import ElmImports.Path.Basic
import ElmImports.Output.Sink

/-!
# Dependencies as lines

Each path is displayed on a line of its own.
-/

namespace ElmImports

def linesOf (paths : List Path) : Text :=
  paths.flatMap fun p => p.display ++ ['\n']

def writeLines (limit : Option Nat) (paths : List Path) : Written :=
  .ofText limit .full (linesOf paths)

end ElmImports
