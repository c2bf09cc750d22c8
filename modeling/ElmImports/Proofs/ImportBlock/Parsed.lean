import ElmImports.Disk.Change
import ElmImports.Module.Name
import ElmImports.Proofs.ImportBlock.Comments
import ElmImports.Proofs.ImportBlock.Scan
import ElmImports.Proofs.Text.Words

/-!
# Recorded lines and the modules they name

A line is recorded if it begins with the keyword and a space, and names a module if a blank of any kind stands behind
the keyword and a word behind the blank. The two differ on a keyword with nothing but blanks behind its space, which
is recorded and names no module, and on one set off by another blank, such as a tab, which names a module and is not
recorded.
-/

namespace ElmImports

/-! ## Import lines -/

def IsBareImport (line : Text) : Prop :=
  ∃ rest, line = "import".toList ++ ' ' :: rest ∧ ∀ c ∈ rest, isBlank c = true

def IsTabbedImport (line : Text) : Prop :=
  ∃ blank rest, isBlank blank = true ∧ blank ≠ ' ' ∧ line = "import".toList ++ blank :: rest ∧
    ∃ c ∈ rest, isBlank c = false

section
variable {line rest : Text} {blank : Char}

theorem isImportLine_iff : isImportLine line = true ↔ ∃ rest, line = "import".toList ++ ' ' :: rest := by
  unfold isImportLine
  rw [List.isPrefixOf_iff_prefix]
  exact ⟨fun ⟨rest, h⟩ => ⟨rest, h.symm⟩, fun ⟨rest, h⟩ => ⟨rest, h.symm⟩⟩

theorem isSome_ofImportLine?_append (hblank : isBlank blank = true) :
    (ModuleName.ofImportLine? ("import".toList ++ blank :: rest)).isSome = true ↔ ∃ c ∈ rest, isBlank c = false := by
  unfold ModuleName.ofImportLine?
  rw [Text.afterKeyword?_append _ hblank, Option.bind_some, Option.isSome_map, ← not_iff_not, Bool.not_eq_true,
    Option.isSome_eq_false_iff, Option.isNone_iff_eq_none, Text.firstWord?_eq_none]
  simp

theorem isSome_ofImportLine? : (ModuleName.ofImportLine? line).isSome = true ↔
    ∃ blank rest, isBlank blank = true ∧ line = "import".toList ++ blank :: rest ∧ ∃ c ∈ rest, isBlank c = false := by
  constructor
  · intro h
    obtain ⟨m, hm⟩ := Option.isSome_iff_exists.mp h
    obtain ⟨rest, hrest, -⟩ := Option.bind_eq_some_iff.mp hm
    obtain ⟨blank, hblank, rfl⟩ := Text.afterKeyword?_eq_some.mp hrest
    exact ⟨blank, rest, hblank, rfl, (isSome_ofImportLine?_append hblank).mp h⟩
  · rintro ⟨blank, rest, hblank, rfl, hword⟩
    exact (isSome_ofImportLine?_append hblank).mpr hword

theorem IsBareImport.ofImportLine? (h : IsBareImport line) : (ModuleName.ofImportLine? line).isSome = false := by
  obtain ⟨rest, rfl, hblank⟩ := h
  rw [Bool.eq_false_iff, Ne, isSome_ofImportLine?_append rfl]
  rintro ⟨c, hc, hword⟩
  rw [hblank c hc] at hword
  cases hword

theorem IsTabbedImport.ofImportLine? (h : IsTabbedImport line) : (ModuleName.ofImportLine? line).isSome = true := by
  obtain ⟨blank, rest, hblank, -, hline, hword⟩ := h
  exact isSome_ofImportLine?.mpr ⟨blank, rest, hblank, hline, hword⟩

theorem IsTabbedImport.isImportLine (h : IsTabbedImport line) : isImportLine line = false := by
  obtain ⟨blank, rest, -, hne, rfl, -⟩ := h
  rw [Bool.eq_false_iff]
  intro himport
  obtain ⟨more, hmore⟩ := isImportLine_iff.mp himport
  exact hne (List.cons.inj (List.append_cancel_left hmore)).1

end

theorem isImportLine_iff_named (line : Text) : isImportLine line = true ↔
    (ModuleName.ofImportLine? line).isSome = true ∧ ¬ IsTabbedImport line ∨ IsBareImport line := by
  constructor
  · intro h
    obtain ⟨rest, rfl⟩ := isImportLine_iff.mp h
    by_cases hword : ∃ c ∈ rest, isBlank c = false
    · refine .inl ⟨(isSome_ofImportLine?_append rfl).mpr hword, fun htabbed => ?_⟩
      rw [htabbed.isImportLine] at h
      cases h
    · refine .inr ⟨rest, rfl, fun c hc => ?_⟩
      by_contra hblank
      exact hword ⟨c, hc, by simpa using hblank⟩
  · rintro (⟨hnamed, htabbed⟩ | ⟨rest, hline, -⟩)
    · obtain ⟨blank, rest, hblank, hline, hword⟩ := isSome_ofImportLine?.mp hnamed
      by_cases hspace : blank = ' '
      · exact isImportLine_iff.mpr ⟨rest, hspace ▸ hline⟩
      · exact absurd ⟨blank, rest, hblank, hspace, hline, hword⟩ htabbed
    · exact isImportLine_iff.mpr ⟨rest, hline⟩

/-! ## What is recorded -/

namespace Scanner

theorem imports_feed_outside (phase : Phase) (recorded : Array Text) (line : Text) :
    (feed ⟨.outside phase, recorded⟩ line).imports = recorded.toList ++ [line] ↔ isImportLine line = true := by
  rw [imports_feed]
  cases h : isImportLine line with
  | true => simp [ScanState.records, imports, h]
  | false => simp [ScanState.records, imports, h]

theorem feed_import (phase : Phase) (recorded : Array Text) {line : Text} (h : isImportLine line = true) :
    feed ⟨.outside phase, recorded⟩ line = ⟨.outside .readingImports, recorded.push line⟩ := by
  rw [feed_outside, if_pos h]
  have hmodule : isModuleLine line = false := by
    by_contra hm
    rw [(other_of_isModuleLine (by simpa using hm)).1] at h
    cases h
  cases phase with
  | awaitingModule => simp [ScanState.next, hmodule, h]
  | awaitingImports => simp [ScanState.next, h]
  | readingImports => simp [ScanState.next, h]

theorem prefix_feedAll (s : Scanner) (lines : List Text) : s.imports <+: (s.feedAll lines).imports := by
  induction lines generalizing s with
  | nil => exact List.prefix_refl s.imports
  | cons line lines ih =>
    refine List.IsPrefix.trans ?_ (ih (s.feed line))
    rw [imports_feed]
    exact List.prefix_append _ _

theorem imports_feedAll_import {s : Scanner} {before : List Text} {phase : Phase} {line : Text}
    (hstate : (s.feedAll before).state = .outside phase) (h : isImportLine line = true) (after : List Text) :
    (s.feedAll (before ++ [line])).state = .outside .readingImports ∧
      ∃ more, (s.feedAll (before ++ line :: after)).imports = (s.feedAll before).imports ++ line :: more := by
  obtain ⟨recorded, hbefore⟩ : ∃ recorded, s.feedAll before = ⟨.outside phase, recorded⟩ :=
    ⟨_, congrArg (Scanner.mk · _) hstate⟩
  have hline : s.feedAll (before ++ [line]) = ⟨.outside .readingImports, recorded.push line⟩ := by
    rw [feedAll_append, hbefore]
    exact feed_import phase recorded h
  obtain ⟨more, hmore⟩ := prefix_feedAll (s.feedAll (before ++ [line])) after
  refine ⟨congrArg state hline, more, ?_⟩
  have hpushed : (s.feedAll (before ++ [line])).imports = (s.feedAll before).imports ++ [line] := by
    rw [hline, hbefore]
    exact Array.toList_push
  rw [List.append_cons, feedAll_append, ← hmore, hpushed, List.append_assoc]
  rfl

end Scanner

/-- A line is recorded if it names a module behind a space. A line that names none is recorded if nothing but blanks
stands behind its space, and one that names a module behind another blank is not. So what is recorded of a file names
a module but for such bare lines, and a line outside comments and ahead of the end of the block is recorded at its
place if it names a module behind a space. -/
theorem recorded_iff_named {disk : Disk} {file : Path} {content : Bytes} (h : disk.read file = .ok content)
    (chunk : Nat) :
    (∀ (phase : Phase) (recorded : Array Text) (line : Text),
      ((Scanner.mk (.outside phase) recorded).feed line).imports = recorded.toList ++ [line] ↔
        (ModuleName.ofImportLine? line).isSome = true ∧ ¬ IsTabbedImport line ∨ IsBareImport line) ∧
      (∀ line, IsBareImport line → (ModuleName.ofImportLine? line).isSome = false) ∧
      (∀ line, IsTabbedImport line → (ModuleName.ofImportLine? line).isSome = true) ∧
      ∃ recorded, disk.importLines? chunk file = some recorded ∧
        (∀ line ∈ recorded, ¬ IsBareImport line → (ModuleName.ofImportLine? line).isSome = true) ∧
        ∀ before line after phase, (rawLines content).map Reader.decodeLine = before ++ line :: after →
          (Scanner.feedAll {} before).state = .outside phase → (ModuleName.ofImportLine? line).isSome = true →
          ¬ IsTabbedImport line →
          (Scanner.feedAll {} (before ++ [line])).state = .outside .readingImports ∧
            ∃ more, recorded = (Scanner.feedAll {} before).imports ++ line :: more := by
  refine ⟨fun phase recorded line => ?_, fun _ => IsBareImport.ofImportLine?, fun _ => IsTabbedImport.ofImportLine?,
    _, disk.importLines?_of_read h chunk, fun line hline hbare => ?_, ?_⟩
  · rw [Scanner.imports_feed_outside, isImportLine_iff_named]
  · have himport := (List.mem_filter.mp hline).2
    exact (((isImportLine_iff_named line).mp himport).resolve_right hbare).1
  · intro before line after phase hlines hstate hnamed htabbed
    have himport := (isImportLine_iff_named line).mpr (.inl ⟨hnamed, htabbed⟩)
    have hrecorded : (Scanner.feedAll {} (before ++ line :: after)).imports =
        (importBlock (before ++ line :: after)).filter isImportLine :=
      congrArg Prod.fst (outcome_feedAll (before ++ line :: after))
    rw [hlines, ← hrecorded]
    exact Scanner.imports_feedAll_import hstate himport after

def oddImports : Disk :=
  Disk.empty.makeFile [Utf8.encode "Main.elm".toList] (Utf8.encode "import \nimport Html\nimport\tTask\n".toList)

theorem recorded_iff_named_oddImports :
    let content := Utf8.encode "import \nimport Html\nimport\tTask\n".toList
    let line := "import Html".toList
    oddImports.read (.ofString "Main.elm") = .ok content ∧
      (rawLines content).map Reader.decodeLine = ["import ".toList] ++ line :: ["import\tTask".toList] ∧
      (Scanner.feedAll {} ["import ".toList]).state = .outside .readingImports ∧
      (ModuleName.ofImportLine? line).isSome = true ∧ ¬ IsTabbedImport line ∧
      ∃ recorded more, oddImports.importLines? 480 (.ofString "Main.elm") = some recorded ∧
        recorded = (Scanner.feedAll {} ["import ".toList]).imports ++ line :: more := by
  intro content line
  have hread : oddImports.read (.ofString "Main.elm") = .ok content := by rfl
  have hlines : (rawLines content).map Reader.decodeLine = ["import ".toList] ++ line :: ["import\tTask".toList] := by
    decide +kernel
  have hstate : (Scanner.feedAll {} ["import ".toList]).state = .outside .readingImports := by decide +kernel
  have hnamed : (ModuleName.ofImportLine? line).isSome = true := by decide +kernel
  have htabbed : ¬ IsTabbedImport line := fun h => absurd h.isImportLine (by decide +kernel)
  obtain ⟨-, -, -, recorded, himports, -, hplace⟩ := recorded_iff_named hread 480
  obtain ⟨-, more, hmore⟩ := hplace _ _ _ _ hlines hstate hnamed htabbed
  exact ⟨hread, hlines, hstate, hnamed, htabbed, recorded, more, himports, hmore⟩

/-- A tab behind the keyword ends the block, though a module is named, and a keyword alone is recorded. -/
theorem tabbed_import_ends_block :
    let reading : Scanner := ⟨.outside .readingImports, #[]⟩
    (reading.feed "import\tTask".toList).imports = [] ∧ (reading.feed "import\tTask".toList).isDone = true ∧
      ModuleName.ofImportLine? "import\tTask".toList = some ⟨"Task".toList⟩ ∧
      (({} : Scanner).feed "import ".toList).imports = ["import ".toList] ∧
      ModuleName.ofImportLine? "import ".toList = none := by
  decide +kernel

end ElmImports
