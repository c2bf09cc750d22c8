import ElmImports.Path.Normal

/-!
# Module names and their files

A module's file lies where the segments of its name lead, and the first letters of the name decide between
the extension of source modules and that of native ones. Names are taken from import lines as they stand;
nothing is asked of a segment, so an empty one adds nothing and a slash inside one is a slash of the path.
-/

namespace ElmImports

/-- The naming rules of a project. Extensions are given without their dot. -/
structure Layout where
  sourceExtension : Text := "elm".toList
  nativeExtension : Text := "js".toList
  /-- What the name of a native module begins with. -/
  nativePrefix : Text := "Native.".toList
  deriving DecidableEq

def Layout.isSourceFile (layout : Layout) (p : Path) : Bool :=
  p.extension? == some (Utf8.encode layout.sourceExtension)

/-- A module name as it is written, such as `Css.Declarations`. -/
structure ModuleName where
  text : Text
  deriving DecidableEq

namespace ModuleName

/-- The name in an import line: the first word behind `import` and a blank. -/
def ofImportLine? (line : Text) : Option ModuleName :=
  (Text.afterKeyword? "import".toList line).bind fun rest => rest.firstWord?.map mk

def isNative (m : ModuleName) (layout : Layout) : Bool :=
  layout.nativePrefix.isPrefixOf m.text

def extension (m : ModuleName) (layout : Layout) : Text :=
  if m.isNative layout then layout.nativeExtension else layout.sourceExtension

def segments (m : ModuleName) : List Text :=
  m.text.splitOn '.'

def stem (m : ModuleName) : Path :=
  m.segments.foldl (fun p segment => p.join (.ofText segment)) ⟨[]⟩

/-- The file of the module below the directory that names start from. -/
def relativePath (m : ModuleName) (layout : Layout) : Path :=
  m.stem.withFileName (m.stem.fileName?.getD [] ++ Path.dot :: Utf8.encode (m.extension layout))

def pathUnder (m : ModuleName) (dir : Path) (layout : Layout) : Path :=
  (dir.join (m.relativePath layout)).normalize

end ModuleName

def importTarget? (line : Text) (dir : Path) (layout : Layout) : Option Path :=
  (ModuleName.ofImportLine? line).map (·.pathUnder dir layout)

end ElmImports
