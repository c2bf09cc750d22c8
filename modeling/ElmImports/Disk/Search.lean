import ElmImports.Disk.Basic

/-!
# Searching upwards

The nearest file of a name is looked for in a directory and then in each of those above it, as far as the
path that was given spells them.
-/

namespace ElmImports.Disk

def nearest? (disk : Disk) (name start : Path) : Option Path :=
  (start.ancestors.map (·.join name)).find? disk.isFile

end ElmImports.Disk
