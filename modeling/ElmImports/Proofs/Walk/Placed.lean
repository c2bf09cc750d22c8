import ElmImports.Disk.Change
import ElmImports.Proofs.Module.Header
import ElmImports.Proofs.Walk.Depth

/-!
# Files placed by their module name

A file that lies where the module it declares is looked for below a base directory gives that directory back,
so that a walk from it goes by that directory and every import of the module leads back to the file.
-/

namespace ElmImports

open Header

namespace Project
variable {P : Project} {base file : Path} {m : ModuleName} {content : Bytes}

theorem target_of_isFile (h : P.disk.isFile (m.pathUnder base P.layout) = true) (r : Resolution) :
    P.target base m r = (m.pathUnder base P.layout, r) := by
  unfold target
  rw [if_pos h]

theorem visit_of_visited {r : Resolution} (hfile : file.IsNormal) (h : r.visited.contains file = true) :
    P.visit base file r = ⟨file, .resolved, r⟩ := by
  rw [visit_eq, hfile, if_pos h]

theorem importTarget?_import (hm : m.Proper) (base : Path) (layout : Layout) :
    importTarget? ("import ".toList ++ m.text) base layout = some (m.pathUnder base layout) := by
  have hline : ModuleName.ofImportLine? ("import ".toList ++ m.text) = some m := by
    have hrest : Text.afterKeyword? "import".toList ("import ".toList ++ m.text) = some m.text :=
      Text.afterKeyword?_append "import".toList (by decide : isBlank ' ' = true) m.text
    have hword := Text.firstWord?_word hm.isWord Text.endsWord_nil
    rw [List.append_nil] at hword
    unfold ModuleName.ofImportLine?
    rw [hrest, Option.bind_some, hword]
    rfl
  unfold importTarget?
  rw [hline]
  rfl

theorem baseDirectory_of_read (h : P.disk.read file = .ok content) :
    P.disk.baseDirectory file = baseDirectoryFor file (.parse (firstLine content)) := by
  unfold Disk.baseDirectory
  rw [h]

theorem baseDirectory_pathUnder (hbase : base.IsNormal) (hsource : '/' ∉ P.layout.sourceExtension)
    (hnative : '/' ∉ P.layout.nativeExtension) (hm : m.Proper)
    (hread : P.disk.read (m.pathUnder base P.layout) = .ok content) (hdeclares : Declares content m.text) :
    P.disk.baseDirectory (m.pathUnder base P.layout) = .ok base ∧
      importTarget? ("import ".toList ++ m.text) base P.layout = some (m.pathUnder base P.layout) ∧
      (∃ report, P.walk (m.pathUnder base P.layout) none = .ok report ∧
        report.entry = m.pathUnder base P.layout ∧ report.base = base) ∧
      ∀ r, P.target base m r = (m.pathUnder base P.layout, r) ∧
        (r.visited.contains (m.pathUnder base P.layout) = true →
          P.visit base (m.pathUnder base P.layout) r = ⟨m.pathUnder base P.layout, .resolved, r⟩) := by
  have hnormal : (m.pathUnder base P.layout).IsNormal := Path.isNormal_normalize _
  have hext : '/' ∉ m.extension P.layout := by
    unfold ModuleName.extension
    split <;> assumption
  have hdir : P.disk.baseDirectory (m.pathUnder base P.layout) = .ok base := by
    rw [baseDirectory_of_read hread, parse_firstLine hm.isWord hdeclares,
      baseDirectoryFor_pathUnder hm hext hbase]
  have hwalk : P.baseOf (m.pathUnder base P.layout) none = .ok base := by
    unfold baseOf
    rw [hnormal, hdir]
  refine ⟨hdir, importTarget?_import hm base P.layout, ⟨_, walk_of_baseOf hwalk, hnormal, rfl⟩, fun r => ?_⟩
  exact ⟨target_of_isFile (Disk.isFile_of_read hread) r, visit_of_visited hnormal⟩

def declarations : ModuleName :=
  ⟨"Css.Declarations".toList⟩

def declarationsContent : Bytes :=
  Utf8.encode "port \tmodule Css.Declarations exposing (..)\r\nimport Css.Declarations\n".toList

def besideLibrary : Project :=
  let name (s : String) := Utf8.encode s.toList
  { disk := (Disk.empty.makeFile [name "Declarations.elm", name "Css", name "lib"] declarationsContent).workIn
      [name "app"] }

theorem baseDirectory_besideLibrary :
    let P := besideLibrary
    let base := Path.ofString "../lib"
    let file := declarations.pathUnder base P.layout
    base.IsNormal ∧ '/' ∉ P.layout.sourceExtension ∧ '/' ∉ P.layout.nativeExtension ∧ declarations.Proper ∧
      P.disk.read file = .ok declarationsContent ∧ Declares declarationsContent declarations.text ∧
      P.disk.baseDirectory file = .ok base ∧
      importTarget? ("import ".toList ++ declarations.text) base P.layout = some file ∧
      (∃ report, P.walk file none = .ok report ∧ report.entry = file ∧ report.base = base) ∧
      ∀ r, P.target base declarations r = (file, r) ∧
        (r.visited.contains file = true → P.visit base file r = ⟨file, .resolved, r⟩) := by
  have hbase : (Path.ofString "../lib").IsNormal := rfl
  have hsource : '/' ∉ besideLibrary.layout.sourceExtension := by decide
  have hnative : '/' ∉ besideLibrary.layout.nativeExtension := by decide
  have hm : declarations.Proper := by
    show ∀ s ∈ ["Css".toList, "Declarations".toList], _
    decide
  have hread : besideLibrary.disk.read (declarations.pathUnder (.ofString "../lib") besideLibrary.layout) =
      .ok declarationsContent := rfl
  have hline : declarationsContent.takeWhile (· != 0x0A) =
      Utf8.encode "port \tmodule Css.Declarations".toList ++ Utf8.encode " exposing (..)\r".toList := rfl
  have hdeclaration : IsDeclaration declarations.text "port \tmodule Css.Declarations".toList := by
    exact ⟨"port \t".toList, " ".toList, Or.inr ⟨" \t".toList, by decide, Or.inl rfl⟩, by decide, rfl⟩
  have hdeclares : Declares declarationsContent declarations.text :=
    ⟨_, _, hdeclaration, hline, Or.inr ⟨' ', Utf8.encode "exposing (..)\r".toList, rfl, rfl⟩⟩
  exact ⟨hbase, hsource, hnative, hm, hread, hdeclares,
    baseDirectory_pathUnder hbase hsource hnative hm hread hdeclares⟩

end Project

end ElmImports
