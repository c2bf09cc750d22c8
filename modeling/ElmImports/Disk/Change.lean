import ElmImports.Disk.Basic

/-!
# Changing a disk

Making a file or a directory makes the directories above it. Removing a place removes what lies under it,
and the working directory with it when it lies there.
-/

namespace ElmImports.Disk

def put (disk : Disk) (place : Place) (node : Node) : Disk :=
  { disk with nodes := disk.nodes.insert place node }

/-- The directory and those above it exist afterwards. -/
def makeDirectory (disk : Disk) : Place → Disk
  | [] => disk
  | name :: above =>
    let disk := disk.makeDirectory above
    if (disk.node? (name :: above)).isSome then disk
    else disk.put (name :: above) .directory

def make (disk : Disk) (place : Place) (node : Node) : Disk :=
  (disk.makeDirectory place.tail).put place node

def makeFile (disk : Disk) (place : Place) (content : Bytes) : Disk :=
  disk.make place (.file content)

def remove (disk : Disk) (top : Place) : Disk where
  nodes := disk.nodes.filter fun place _ => ! top.isUnder place
  cwd := disk.cwd.filter (! top.isUnder ·)

def workIn (disk : Disk) (place : Place) : Disk :=
  { disk.makeDirectory place with cwd := some place }

end ElmImports.Disk
