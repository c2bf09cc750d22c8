import ElmImports.Config.Basic
import ElmImports.Output.Sink

/-!
# Listing a configuration

The listing names the files that were loaded, numbered, and then every setting in the order of its key with
its value and where that comes from.
-/

namespace ElmImports.Config

def valueText (c : Config) : Setting → Text
  | .format => c.format.name
  | .chunkSize => Decimal.write c.chunk
  | .sourceExtension => c.layout.sourceExtension
  | .nativeExtension => c.layout.nativeExtension
  | .nativePrefix => c.layout.nativePrefix
  | .manifest => c.manifest
  | .sourceRoots => if c.sourceRoots then "true".toList else "false".toList

def filesText (c : Config) : Text :=
  match c.loaded with
  | [] => "Loaded config files: (none)\n".toList
  | files => "Loaded config files:\n".toList ++ files.zipIdx.flatMap fun (p, i) =>
      "  ".toList ++ Decimal.write (i + 1) ++ ". ".toList ++ p.display ++ ['\n']

def settingText (c : Config) (key : Text) (origin : Origin) : Text :=
  let value := match Setting.ofKey? key with
    | some s => c.valueText s
    | none => "(unknown)".toList
  "  ".toList ++ key ++ ": ".toList ++ value ++ " <- ".toList ++ origin.display ++ ['\n']

def listing (c : Config) : Text :=
  c.filesText ++ "\nResolved settings:\n".toList ++
    c.origins.toList.flatMap fun (key, origin) => c.settingText key origin

def writeListing (limit : Option Nat) (c : Config) : Written :=
  .ofText limit .full c.listing

end ElmImports.Config
