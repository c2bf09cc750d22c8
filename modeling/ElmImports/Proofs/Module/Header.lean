import ElmImports.Module.Header
import ElmImports.Proofs.Disk.Reading
import ElmImports.Proofs.Module.Name
import ElmImports.Proofs.Text.Words

/-!
# Declared modules and their base directory

A declaration is read whatever follows its name on the line, text or not, and whatever line end closes it.
The base directory found from it lies as many steps above the file's directory as the name has segments
before its last; for a file that lies where its name leads from a base directory, that is the base directory.
-/

namespace ElmImports

open Text

namespace Header

/-! ## Declarations -/

def IsQualifier (t : Text) : Prop :=
  t = [] ∨ ∃ blanks : Text, blanks.IsBlanks ∧ (t = "port".toList ++ blanks ∨ t = "effect".toList ++ blanks)

/-- `t` is a declaration up to the end of the declared name. -/
def IsDeclaration (name t : Text) : Prop :=
  ∃ qualifier blanks : Text, IsQualifier qualifier ∧ blanks.IsBlanks ∧
    t = qualifier ++ ("module".toList ++ (blanks ++ name))

/-- The first line is a declaration of `name`, behind which it ends or goes on with a blank and any bytes. -/
def Declares (content : Bytes) (name : Text) : Prop :=
  ∃ t rest, IsDeclaration name t ∧ content.takeWhile (· != 0x0A) = Utf8.encode t ++ rest ∧
    (rest = [] ∨ ∃ c more, isBlank c = true ∧ rest = Utf8.encode [c] ++ more)

theorem isWord_module : IsWord "module".toList := by
  decide

theorem unqualified_of_isQualifier {qualifier : Text} (h : IsQualifier qualifier) (rest : Text) :
    unqualified (qualifier ++ ("module".toList ++ rest)) = "module".toList ++ rest := by
  rcases h with rfl | ⟨blanks, hblanks, rfl | rfl⟩
  · rfl
  · unfold unqualified
    rw [List.append_assoc, afterKeyword?_blanks _ hblanks]
    show trimStart (blanks.tail ++ _) = _
    rw [trimStart_append hblanks.tail, trimStart_word isWord_module]
  · have hport : afterKeyword? "port".toList ("effect".toList ++ blanks ++ ("module".toList ++ rest)) = none := rfl
    unfold unqualified
    rw [hport, List.append_assoc, afterKeyword?_blanks _ hblanks]
    show trimStart (blanks.tail ++ _) = _
    rw [trimStart_append hblanks.tail, trimStart_word isWord_module]

theorem parse_declaration {name t : Text} (hname : name.IsWord) (h : IsDeclaration name t) {rest : Text}
    (hrest : EndsWord rest) : parse (t ++ rest) = .declared name := by
  obtain ⟨qualifier, blanks, hqualifier, hblanks, rfl⟩ := h
  have hunqualified := unqualified_of_isQualifier hqualifier (blanks ++ (name ++ rest))
  have hline : qualifier ++ ("module".toList ++ (blanks ++ name)) ++ rest =
      qualifier ++ ("module".toList ++ (blanks ++ (name ++ rest))) := by
    simp only [List.append_assoc]
  unfold parse
  rw [hline, hunqualified, afterKeyword?_blanks _ hblanks]
  dsimp only
  rw [firstWord?_append hblanks.tail, firstWord?_word hname hrest]

/-! ## The first line -/

theorem isBlank_of_isLineEnd {c : Char} (h : isLineEnd c = true) : isBlank c = true := by
  unfold isLineEnd at h
  rcases Bool.or_eq_true_iff.mp h with h | h <;> rw [beq_iff_eq] at h <;> subst h <;> decide

theorem endsWord_of_prefix {t rest : Text} (h : EndsWord rest) (ht : t <+: rest) : EndsWord t := by
  obtain ⟨more, rfl⟩ := ht
  cases t with
  | nil => exact endsWord_nil
  | cons c t => exact h

/-- Line ends are dropped from behind a word, which stays whole. -/
theorem dropLineEnds_append {t rest : Text} (ht : ∃ c ∈ t.getLast?, isBlank c = false) (hrest : EndsWord rest) :
    ∃ rest', EndsWord rest' ∧ ((t ++ rest).reverse.dropWhile isLineEnd).reverse = t ++ rest' := by
  obtain ⟨c, hc, hblank⟩ := ht
  obtain ⟨init, rfl⟩ : ∃ init, t = init ++ [c] := List.getLast?_eq_some_iff.mp hc
  have hkept : (init ++ [c]).reverse.dropWhile isLineEnd = (init ++ [c]).reverse := by
    rw [List.reverse_append, List.reverse_singleton, List.singleton_append, List.dropWhile_cons_of_neg]
    intro h
    rw [isBlank_of_isLineEnd h] at hblank
    cases hblank
  refine ⟨(rest.reverse.dropWhile isLineEnd).reverse, ?_, ?_⟩
  · apply endsWord_of_prefix hrest
    have := List.reverse_prefix.mpr (List.dropWhile_suffix isLineEnd (l := rest.reverse))
    rwa [List.reverse_reverse] at this
  · rw [List.reverse_append, List.dropWhile_append]
    split
    · rename_i hnil
      rw [hkept, List.isEmpty_iff.mp hnil]
      simp
    · rw [List.reverse_append, List.reverse_reverse]

theorem parse_firstLine {content : Bytes} {name : Text} (hname : name.IsWord) (h : Declares content name) :
    parse (firstLine content) = .declared name := by
  obtain ⟨t, rest, ht, hline, hrest⟩ := h
  have hends : EndsWord (Utf8.decodeLossy rest) := by
    rcases hrest with rfl | ⟨c, more, hc, rfl⟩
    · exact endsWord_nil
    · rw [Utf8.decodeLossy_encode_append]
      exact endsWord_cons hc _
  have hlast : ∃ c ∈ t.getLast?, isBlank c = false := by
    obtain ⟨qualifier, blanks, -, -, rfl⟩ := ht
    obtain ⟨init, c, rfl⟩ := (List.eq_nil_or_concat name).resolve_left hname.1
    refine ⟨c, ?_, hname.2 c (by simp)⟩
    simp only [List.concat_eq_append, ← List.append_assoc]
    exact List.getLast?_concat
  obtain ⟨rest', hrest', hdrop⟩ := dropLineEnds_append hlast hends
  unfold firstLine
  rw [hline, Utf8.decodeLossy_encode_append, hdrop]
  exact parse_declaration hname ht hrest'

end Header

/-! ## The base directory -/

open ElmImports.Path

theorem steps_foldl_parent {α : Type} (up : List α) (names : List Bytes) (hlength : names.length = up.length)
    {dir : Path} {kept : List Component} (h : dir.steps = names.map .name ++ kept) :
    (up.foldl (fun dir _ => dir.join ⟨[dot, dot]⟩) dir).steps = kept := by
  induction up generalizing names dir with
  | nil =>
    obtain rfl := List.eq_nil_of_length_eq_zero hlength
    exact h
  | cons _ up ih =>
    obtain ⟨name, names, rfl⟩ := List.exists_cons_of_length_eq_add_one hlength
    refine ih names (by simpa using hlength) ?_
    rw [steps_join rfl, h]
    rfl

section
variable {m : ModuleName} {layout : Layout} {base : Path}

def ModuleName.Proper (m : ModuleName) : Prop :=
  ∀ s ∈ m.segments, s.IsWord ∧ '/' ∉ s

theorem ModuleName.Proper.isWord (h : m.Proper) : m.text.IsWord := by
  have htext : ['.'].intercalate m.segments = m.text := List.intercalate_splitOn '.'
  constructor
  · intro hnil
    have hsegments : m.segments = [[]] := by
      unfold segments
      rw [hnil, List.splitOn_nil]
    exact (h [] (by simp [hsegments])).1.1 rfl
  · intro c hc
    rw [← htext] at hc
    rcases Pieces.mem_intercalate hc with rfl | ⟨s, hs, hcs⟩
    · decide
    · exact (h s hs).1.2 c hcs

theorem ModuleName.Proper.names (h : m.Proper) : m.names = m.segments.map Utf8.encode :=
  names_eq fun s hs => (h s hs).1.1

theorem baseDirectoryFor_pathUnder (hm : m.Proper) (hext : '/' ∉ m.extension layout) (hbase : base.IsNormal) :
    baseDirectoryFor (m.pathUnder base layout) (.declared m.text) = .ok base := by
  obtain ⟨dirs, last, hsegments⟩ := m.exists_segments
  have hnames : m.names = dirs.map Utf8.encode ++ [Utf8.encode last] := by
    rw [hm.names, hsegments, List.map_append]
    rfl
  have hsteps := m.steps_pathUnder (fun s hs => (hm s hs).2) hnames hext base
  have hdirectory := steps_directory_normalize hsteps
  rw [← List.map_reverse] at hdirectory
  have hup : (dirs.map Utf8.encode).reverse.length = m.segments.tail.length := by
    simp [hsegments]
  have hback := steps_foldl_parent m.segments.tail _ hup hdirectory
  unfold baseDirectoryFor
  exact congrArg Except.ok ((normalize_eq_of_steps_eq hback).trans hbase)

end

/-- A base directory is found only for a file that can be read, at or above the file's own directory. -/
theorem Disk.of_baseDirectory {disk : Disk} {file base : Path} (h : disk.baseDirectory file = .ok base) :
    (∃ content, disk.read file = .ok content) ∧
      ∃ up : List Text, base = (up.foldl (fun dir _ => dir.join ⟨[dot, dot]⟩) file.directory).normalize := by
  unfold baseDirectory at h
  cases hread : disk.read file with
  | error cause =>
    rw [hread] at h
    cases h
  | ok content =>
    rw [hread] at h
    refine ⟨⟨content, rfl⟩, ?_⟩
    dsimp only at h
    unfold baseDirectoryFor at h
    split at h
    · rename_i name _
      cases h
      exact ⟨(name.splitOn '.').tail, rfl⟩
    · cases h
      exact ⟨[], rfl⟩
    · cases h

end ElmImports
