import ElmImports.Config.Setting
import ElmImports.Output.Format
import ElmImports.Path.Edit
import ElmImports.Text.Decimal
import ElmImports.Toml.Document

/-!
# Layers of settings

A layer gives values to some of the settings. A configuration file, the environment and the command line each
make one. In a file the settings are grouped in sections, which are tables that may hold their own keys only,
or arrays that list the values of all keys in order.
-/

namespace ElmImports

structure Layer where
  format? : Option OutputFormat := none
  chunk? : Option Nat := none
  sourceExtension? : Option Text := none
  nativeExtension? : Option Text := none
  nativePrefix? : Option Text := none
  manifest? : Option Text := none
  sourceRoots? : Option Bool := none

def Layer.sets (layer : Layer) : Setting → Bool
  | .format => layer.format?.isSome
  | .chunkSize => layer.chunk?.isSome
  | .sourceExtension => layer.sourceExtension?.isSome
  | .nativeExtension => layer.nativeExtension?.isSome
  | .nativePrefix => layer.nativePrefix?.isSome
  | .manifest => layer.manifest?.isSome
  | .sourceRoots => layer.sourceRoots?.isSome

/-! ## Configuration files -/

structure ConfigFile where
  /-- A text that may name no format. -/
  format? : Option Text := none
  others : Layer := {}

namespace ConfigFile

open Toml

/-- A section by its keys; `none` if a key is not one of `keys` or an array is too short. -/
def section? (root : Table) (name : Text) (keys : List Text) : Option Table :=
  match root.lookup name with
  | none => some []
  | some (.table _ entries) => if entries.all (keys.contains ·.1) then some entries else none
  | some (.array items) => if keys.length ≤ items.length then some (keys.zip items) else none
  | some _ => none

def text? (entries : Table) (key : Text) : Option (Option Text) :=
  match entries.lookup key with
  | none => some none
  | some (.string t) => some (some t)
  | some _ => none

def natural? (entries : Table) (key : Text) : Option (Option Nat) :=
  match entries.lookup key with
  | none => some none
  | some (.integer n) => if 0 ≤ n then some (some n.toNat) else none
  | some _ => none

def boolean? (entries : Table) (key : Text) : Option (Option Bool) :=
  match entries.lookup key with
  | none => some none
  | some (.boolean b) => some (some b)
  | some _ => none

def sections : List Text :=
  ["defaults".toList, "scanner".toList, "resolver".toList]

/-- Reads a configuration file; `none` if it is no TOML, or has a section, a key or a value that it must not. -/
def parse? (content : Text) : Option ConfigFile := do
  let root ← document? content
  if ! root.all (sections.contains ·.1) then failure
  let defaults ← section? root "defaults".toList ["format".toList]
  let scanner ← section? root "scanner".toList ["chunk_size".toList]
  let resolver ← section? root "resolver".toList
    ["source_extension".toList, "native_extension".toList, "native_prefix".toList, "manifest".toList,
      "source_roots".toList]
  let others : Layer := {
    chunk? := ← natural? scanner "chunk_size".toList
    sourceExtension? := ← text? resolver "source_extension".toList
    nativeExtension? := ← text? resolver "native_extension".toList
    nativePrefix? := ← text? resolver "native_prefix".toList
    manifest? := ← text? resolver "manifest".toList
    sourceRoots? := ← boolean? resolver "source_roots".toList }
  return ⟨← text? defaults "format".toList, others⟩

end ConfigFile

/-! ## The environment -/

/-- The environment variables, whose values are bytes. -/
abbrev Environment := List (Text × Bytes)

namespace Environment

def text? (env : Environment) (name : Text) : Option Text :=
  (env.lookup name).bind Utf8.decode?

def value? (env : Environment) (s : Setting) : Option Text :=
  env.text? s.envName

def isOn (t : Text) : Bool :=
  t == ['1'] || t.lowerAscii == "true".toList

def configBelow (dir : Path) : Path :=
  dir.join (.ofString "elm-deps/config.toml")

def configAtHome? (env : Environment) : Option Path :=
  ((env.lookup "HOME".toList).filter (! ·.isEmpty)).map fun home =>
    configBelow ((Path.mk home).join (.ofString ".config"))

def userConfig? (env : Environment) : Option Path :=
  match (env.lookup "XDG_CONFIG_HOME".toList).map Path.mk with
  | some dir => if dir.isAbsolute then some (configBelow dir) else env.configAtHome?
  | none => env.configAtHome?

end Environment

end ElmImports
