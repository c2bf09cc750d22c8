import Std.Data.TreeMap
import ElmImports.Path.Basic

/-!
# Settings and where their values come from

There are seven settings, each with a key, an environment variable and a command-line flag. Origins are kept
by key, in the order of the keys.
-/

namespace ElmImports

inductive Setting
  | format
  | chunkSize
  | sourceExtension
  | nativeExtension
  | nativePrefix
  | manifest
  | sourceRoots
  deriving DecidableEq

namespace Setting

def all : List Setting :=
  [format, chunkSize, sourceExtension, nativeExtension, nativePrefix, manifest, sourceRoots]

theorem mem_all (s : Setting) : s ∈ all := by
  cases s <;> decide

def key : Setting → Text
  | format => "defaults.format".toList
  | chunkSize => "scanner.chunk_size".toList
  | sourceExtension => "resolver.source_extension".toList
  | nativeExtension => "resolver.native_extension".toList
  | nativePrefix => "resolver.native_prefix".toList
  | manifest => "resolver.manifest".toList
  | sourceRoots => "resolver.source_roots".toList

def envName : Setting → Text
  | format => "ELM_DEPS_FORMAT".toList
  | chunkSize => "ELM_DEPS_CHUNK_SIZE".toList
  | sourceExtension => "ELM_DEPS_SOURCE_EXTENSION".toList
  | nativeExtension => "ELM_DEPS_NATIVE_EXTENSION".toList
  | nativePrefix => "ELM_DEPS_NATIVE_PREFIX".toList
  | manifest => "ELM_DEPS_MANIFEST".toList
  | sourceRoots => "ELM_DEPS_SOURCE_ROOTS".toList

def flag : Setting → Text
  | format => "--format".toList
  | chunkSize => "--chunk-size".toList
  | sourceExtension => "--source-extension".toList
  | nativeExtension => "--native-extension".toList
  | nativePrefix => "--native-prefix".toList
  | manifest => "--manifest".toList
  | sourceRoots => "--no-source-roots".toList

def ofKey? (key : Text) : Option Setting :=
  all.find? (·.key = key)

end Setting

/-! ## Origins -/

inductive Origin
  | builtIn
  | userFile (p : Path)
  | projectFile (p : Path)
  | environment (name : Text)
  | commandLine (flag : Text)

def Origin.display : Origin → Text
  | builtIn => "default".toList
  | userFile p => "user config (".toList ++ p.display ++ [')']
  | projectFile p => "project config (".toList ++ p.display ++ [')']
  | environment name => "env var (".toList ++ name ++ [')']
  | commandLine flag => "CLI flag (".toList ++ flag ++ [')']

abbrev Origins := Std.TreeMap Text Origin

def Origins.defaults (keys : List Text) : Origins :=
  keys.foldl (fun origins key => origins.insert key .builtIn) ∅

end ElmImports
