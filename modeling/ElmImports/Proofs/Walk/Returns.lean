import ElmImports.Proofs.ImportBlock.Scan
import ElmImports.Proofs.Json.Returns
import ElmImports.Proofs.Lines.Returns
import ElmImports.Proofs.Walk.Alike
import ElmImports.Proofs.Walk.Placed

/-!
# Walks with either line end

When carriage returns are put ahead of the line feeds of some files that have none, every path leads where it led, a
file gives the same import lines and declares the same base directory, and a manifest declares the same source
roots. So every walk ends as it ended before.
-/

namespace ElmImports

def Node.withReturns : Node → Node
  | .file content => .file content.withReturns
  | .lockedFile => .lockedFile
  | .directory => .directory

namespace Disk

def withReturns (disk : Disk) (selected : Place → Bool) : Disk :=
  { disk with nodes := disk.nodes.map fun place node => if selected place then node.withReturns else node }

variable {disk : Disk} {selected : Place → Bool}

/-! ## Looking up -/

theorem node?_withReturns (place : Place) : (disk.withReturns selected).node? place =
    (disk.node? place).map fun node => if selected place then node.withReturns else node := by
  cases place with
  | nil =>
    show some Node.directory = some (if selected [] then .directory else .directory)
    rw [ite_self]
  | cons name above => exact Std.TreeMap.getElem?_map

theorem isDirectory_withReturns (place : Place) :
    (disk.withReturns selected).isDirectory place = disk.isDirectory place := by
  unfold isDirectory
  rw [node?_withReturns]
  cases disk.node? place with
  | none => rfl
  | some node => cases node <;> cases selected place <;> rfl

theorem locate_withReturns (p : Path) : (disk.withReturns selected).locate p = disk.locate p := by
  have henter : (disk.withReturns selected).enter = disk.enter := by
    funext place piece
    unfold enter
    rw [isDirectory_withReturns, node?_withReturns, Option.isNone_map]
  unfold locate
  rw [henter]
  rfl

theorem isFile_withReturns (p : Path) : (disk.withReturns selected).isFile p = disk.isFile p := by
  have hregular (place : Place) : (disk.withReturns selected).isRegular place = disk.isRegular place := by
    unfold isRegular
    rw [node?_withReturns]
    cases disk.node? place with
    | none => rfl
    | some node => cases node <;> cases selected place <;> rfl
  unfold isFile
  rw [locate_withReturns]
  simp only [hregular]

/-! ## Reading -/

/-- What a path gives before and after: the same, or content that has returns put in. -/
inductive SameLines : Except OsError Bytes → Except OsError Bytes → Prop
  | same (result) : SameLines result result
  | returns {content : Bytes} : 0x0D ∉ content → SameLines (.ok content) (.ok content.withReturns)

theorem read_withReturns (h : ∀ place content, disk.node? place = some (.file content) → selected place = true →
    0x0D ∉ content) (p : Path) : SameLines (disk.read p) ((disk.withReturns selected).read p) := by
  cases hlocate : disk.locate p with
  | error cause =>
    rw [read_of_locate_error hlocate, read_of_locate_error ((locate_withReturns p).trans hlocate)]
    exact .same _
  | ok place =>
    rw [read_of_locate hlocate, read_of_locate ((locate_withReturns p).trans hlocate), node?_withReturns]
    cases hnode : disk.node? place with
    | none => exact .same _
    | some node =>
      cases hselected : selected place with
      | false => exact .same _
      | true =>
        cases node with
        | directory => exact .same _
        | lockedFile => exact .same _
        | file content => exact .returns (h place content hnode hselected)

section
variable {p : Path}

theorem SameLines.importLines? {disk' : Disk} (h : SameLines (disk.read p) (disk'.read p)) (chunk : Nat) :
    disk'.importLines? chunk p = disk.importLines? chunk p := by
  generalize hresult : disk.read p = result at h
  generalize hresult' : disk'.read p = result' at h
  cases h with
  | same =>
    cases result with
    | error cause => rw [importLines?_of_read_error hresult, importLines?_of_read_error hresult']
    | ok content => rw [importLines?_of_read hresult, importLines?_of_read hresult']
  | returns hcontent =>
    rw [importLines?_of_read hresult, importLines?_of_read hresult', lines_withReturns hcontent]

theorem SameLines.baseDirectory {disk' : Disk} (h : SameLines (disk.read p) (disk'.read p)) :
    disk'.baseDirectory p = disk.baseDirectory p := by
  unfold Disk.baseDirectory
  generalize disk.read p = result at h
  generalize disk'.read p = result' at h
  cases h with
  | same => rfl
  | returns _ =>
    dsimp only
    rw [firstLine_withReturns]

theorem SameLines.declaredBy {disk' : Disk} (h : SameLines (disk.read p) (disk'.read p)) :
    SourceRoots.declaredBy disk' p = SourceRoots.declaredBy disk p := by
  unfold SourceRoots.declaredBy
  generalize disk.read p = result at h
  generalize disk'.read p = result' at h
  cases h with
  | same => rfl
  | @returns content _ =>
    have hread : (Utf8.decode? content.withReturns).bind Manifest.read? =
        (Utf8.decode? content).bind Manifest.read? := by
      rw [Utf8.decode?_withReturns, Option.bind_map]
      congr 1
      funext t
      exact Manifest.read?_withReturns t
    dsimp only
    rw [hread]

end

end Disk

namespace Project

def withReturns (P : Project) (selected : Place → Bool) : Project :=
  { P with disk := P.disk.withReturns selected }

theorem ofManifest_withReturns {disk disk' : Disk} (hfile : ∀ p, disk'.isFile p = disk.isFile p)
    (h : ∀ p, Disk.SameLines (disk.read p) (disk'.read p)) (name : Text) (base : Path) :
    SourceRoots.ofManifest name disk' base = SourceRoots.ofManifest name disk base := by
  have hmanifest : SourceRoots.manifest? disk' name base = SourceRoots.manifest? disk name base := by
    unfold SourceRoots.manifest? Disk.nearest?
    rw [funext hfile]
  unfold SourceRoots.ofManifest
  rw [hmanifest]
  cases SourceRoots.manifest? disk name base with
  | none => rfl
  | some manifest => exact (h manifest).declaredBy

/-- Returns ahead of the line feeds of files that have none change no walk. The source roots are those of a manifest,
or do not depend on the line ends. -/
theorem walk_withReturns (P : Project) (selected : Place → Bool)
    (hfiles : ∀ place content, P.disk.node? place = some (.file content) → selected place = true → 0x0D ∉ content)
    (hroots : (∃ name, P.sourceRoots = .ofManifest name) ∨
      ∀ base, P.sourceRoots (P.disk.withReturns selected) base = P.sourceRoots P.disk base)
    (entry : Path) (base? : Option Path) : (P.withReturns selected).walk entry base? = P.walk entry base? := by
  have hread := Disk.read_withReturns hfiles
  have halike : Alike P (P.withReturns selected) := {
    layout := rfl
    isFile := Disk.isFile_withReturns
    importLines? := fun p => (hread p).importLines? P.chunk
    baseDirectory := fun p => (hread p).baseDirectory
    sourceRoots := fun base => by
      rcases hroots with ⟨name, hname⟩ | hsame
      · show P.sourceRoots (P.disk.withReturns selected) base = P.sourceRoots P.disk base
        rw [hname]
        exact ofManifest_withReturns Disk.isFile_withReturns hread name base
      · exact hsame base }
  exact halike.walk entry base?

/-- A comment hides an import of the entry, and the module of the other lies below a root that a manifest declares. -/
def commentedImport : Project :=
  let name (s : String) := Utf8.encode s.toList
  { disk := ((Disk.empty.makeFile [name "Main.elm", name "src"]
      (name "module Main exposing (..)\n\x7b-| Of\nimport Hidden -\x7d\nimport Util\n")).makeFile
      [name "Util.elm", name "lib"] (name "import Gone\nimport Main\n")).makeFile
      [name "elm.json"] (name "\x7b\"source-directories\":\n[\"lib\"]\x7d\n") }

theorem walk_withReturns_commentedImport :
    let selected : Place → Bool := fun place => place.head? != some (Utf8.encode "Util.elm".toList)
    let entry := Path.ofString "src/Main.elm"
    (∀ place content, commentedImport.disk.node? place = some (.file content) → selected place = true →
        0x0D ∉ content) ∧
      ((∃ name, commentedImport.sourceRoots = .ofManifest name) ∨
        ∀ base, commentedImport.sourceRoots (commentedImport.disk.withReturns selected) base =
          commentedImport.sourceRoots commentedImport.disk base) ∧
      ∃ report, (commentedImport.withReturns selected).walk entry none = .ok report ∧
        commentedImport.walk entry none = .ok report ∧ report.dependencies = [.ofString "lib/Util.elm", entry] ∧
        report.unreadable = [.ofString "src/Gone.elm"] := by
  intro selected entry
  have hcontents : ∀ content ∈ commentedImport.disk.contents, 0x0D ∉ content := by decide +kernel
  have hfiles : ∀ place content, commentedImport.disk.node? place = some (.file content) →
      selected place = true → 0x0D ∉ content :=
    fun _ content hnode _ => hcontents content (Disk.mem_contents hnode)
  have hroots : (∃ name, commentedImport.sourceRoots = .ofManifest name) ∨
      ∀ base, commentedImport.sourceRoots (commentedImport.disk.withReturns selected) base =
        commentedImport.sourceRoots commentedImport.disk base := .inl ⟨_, rfl⟩
  obtain ⟨report, hwalk, hdependencies, hunreadable⟩ : ∃ report, commentedImport.walk entry none = .ok report ∧
      report.dependencies = [.ofString "lib/Util.elm", entry] ∧ report.unreadable = [.ofString "src/Gone.elm"] := by
    have hbase : commentedImport.baseOf (.ofString "src/Main.elm") none = .ok (.ofString "src") := rfl
    refine ⟨_, walk_of_baseOf hbase, ?_, ?_⟩
    · exact Path.map_bytes_inj (by decide +kernel)
    · exact Path.map_bytes_inj (by decide +kernel)
  have hreturns := walk_withReturns commentedImport selected hfiles hroots entry none
  exact ⟨hfiles, hroots, report, hreturns.trans hwalk, hwalk, hdependencies, hunreadable⟩

end Project

end ElmImports
