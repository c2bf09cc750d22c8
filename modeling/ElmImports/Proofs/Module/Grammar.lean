import ElmImports.Proofs.Module.Header

/-!
# The grammar of module headers

A line declares a module if it is an optional qualifier, `module` and a name, with blanks between them, and goes on
with a blank if it goes on. If it holds no name behind the blanks it is invalid, and any other line declares nothing.
A line that opens with a qualifier and does not go on with `module` is one of the others, as no word that stands ahead
of `module` is `module` itself.
-/

namespace ElmImports.Header

open Text

/-- The line declares `name`, behind which it ends or goes on with a blank. -/
def NamesModule (line name : Text) : Prop :=
  name.IsWord ∧ ∃ t rest, IsDeclaration name t ∧ EndsWord rest ∧ line = t ++ rest

def IsUnnamed (line : Text) : Prop :=
  ∃ qualifier blanks : Text, IsQualifier qualifier ∧ blanks.IsBlanks ∧ line = qualifier ++ ("module".toList ++ blanks)

/-! ## Reading a header -/

/-- A word that may stand ahead of `module` is a qualifier with all blanks that follow it. -/
theorem exists_qualifier_of_afterKeyword? {word line rest : Text}
    (hword : word = "port".toList ∨ word = "effect".toList) (h : afterKeyword? word line = some rest) :
    ∃ qualifier, IsQualifier qualifier ∧ line = qualifier ++ rest.trimStart := by
  obtain ⟨c, hc, rfl⟩ := afterKeyword?_eq_some.mp h
  obtain ⟨blanks, hblanks, hrest⟩ := rest.exists_trimStart
  refine ⟨word ++ c :: blanks, Or.inr ⟨c :: blanks, isBlanks_cons hc hblanks, ?_⟩, ?_⟩
  · rcases hword with rfl | rfl
    · exact Or.inl rfl
    · exact Or.inr rfl
  · rw [List.append_assoc, List.cons_append, ← hrest]

theorem exists_qualifier (line : Text) : ∃ qualifier, IsQualifier qualifier ∧ line = qualifier ++ unqualified line := by
  unfold unqualified
  cases hport : afterKeyword? "port".toList line with
  | some rest => exact exists_qualifier_of_afterKeyword? (Or.inl rfl) hport
  | none =>
    cases heffect : afterKeyword? "effect".toList line with
    | some rest => exact exists_qualifier_of_afterKeyword? (Or.inr rfl) heffect
    | none => exact ⟨[], Or.inl rfl, rfl⟩

theorem parse_cases (line : Text) : (∃ name, parse line = .declared name ∧ NamesModule line name) ∨
    (parse line = .invalid ∧ IsUnnamed line) ∨ parse line = .omitted := by
  obtain ⟨qualifier, hqualifier, hline⟩ := exists_qualifier line
  unfold parse
  cases hmodule : afterKeyword? "module".toList (unqualified line) with
  | none => exact Or.inr (Or.inr rfl)
  | some rest =>
    obtain ⟨c, hc, hunqualified⟩ := afterKeyword?_eq_some.mp hmodule
    rw [hunqualified] at hline
    dsimp only
    cases hword : rest.firstWord? with
    | none =>
      have hblanks := isBlanks_cons hc (firstWord?_eq_none.mp hword)
      exact Or.inr (Or.inl ⟨rfl, qualifier, c :: rest, hqualifier, hblanks, hline⟩)
    | some name =>
      obtain ⟨blanks, rest, hblanks, hrest, rfl⟩ := exists_of_firstWord? hword
      refine Or.inl ⟨name, rfl, firstWord?_eq_some hword, qualifier ++ ("module".toList ++ (c :: blanks ++ name)), rest,
        ⟨qualifier, c :: blanks, hqualifier, isBlanks_cons hc hblanks, rfl⟩, hrest, ?_⟩
      rw [hline]
      simp only [List.append_assoc, List.cons_append]

theorem NamesModule.parse {line name : Text} (h : NamesModule line name) : parse line = .declared name := by
  obtain ⟨hname, t, rest, ht, hrest, rfl⟩ := h
  exact parse_declaration hname ht hrest

theorem IsUnnamed.parse {line : Text} (h : IsUnnamed line) : parse line = .invalid := by
  obtain ⟨qualifier, blanks, hqualifier, hblanks, rfl⟩ := h
  have hmodule := afterKeyword?_blanks "module".toList hblanks []
  rw [List.append_nil, List.append_nil] at hmodule
  unfold Header.parse
  rw [unqualified_of_isQualifier hqualifier, hmodule]
  dsimp only
  rw [firstWord?_eq_none.mpr hblanks.tail]

theorem parse_eq_declared_iff {line name : Text} : parse line = .declared name ↔ NamesModule line name := by
  refine ⟨fun h => ?_, NamesModule.parse⟩
  rcases parse_cases line with ⟨name', hparse, hnames⟩ | ⟨hparse, -⟩ | hparse
  · rw [h] at hparse
    exact Header.declared.inj hparse ▸ hnames
  · exact nomatch h.symm.trans hparse
  · exact nomatch h.symm.trans hparse

theorem parse_eq_invalid_iff {line : Text} : parse line = .invalid ↔ IsUnnamed line := by
  refine ⟨fun h => ?_, IsUnnamed.parse⟩
  rcases parse_cases line with ⟨name, hparse, -⟩ | ⟨-, hunnamed⟩ | hparse
  · exact nomatch h.symm.trans hparse
  · exact hunnamed
  · exact nomatch h.symm.trans hparse

/-- A header is read by its grammar: a line either declares one module, or is invalid, or declares nothing. -/
theorem parse_iff_grammar (line : Text) :
    (∀ name, parse line = .declared name ↔ NamesModule line name) ∧
      (parse line = .invalid ↔ IsUnnamed line) ∧
      (parse line = .omitted ↔ (∀ name, ¬ NamesModule line name) ∧ ¬ IsUnnamed line) ∧
      (∀ name, NamesModule line name → ¬ IsUnnamed line) ∧
      ∀ name name', NamesModule line name → NamesModule line name' → name = name' := by
  refine ⟨fun _ => parse_eq_declared_iff, parse_eq_invalid_iff, ?_, ?_, ?_⟩
  · simp only [← parse_eq_declared_iff, ← parse_eq_invalid_iff]
    cases parse line with
    | declared name => exact iff_of_false nofun fun h => h.1 name rfl
    | omitted => exact iff_of_true rfl ⟨nofun, nofun⟩
    | invalid => exact iff_of_false nofun fun h => h.2 rfl
  · exact fun name hnames hunnamed => nomatch hnames.parse.symm.trans hunnamed.parse
  · exact fun name name' h h' => Header.declared.inj (h.parse.symm.trans h'.parse)

/-- A qualifier is read once, and only as a whole word ahead of `module`. -/
example : (["port  module A.B(..)", "port port module A", "effect module", "portmodule A", "module\u3000"].map
    fun line => parse line.toList) = [.declared "A.B(..)".toList, .omitted, .omitted, .omitted, .invalid] := by
  decide +kernel

end ElmImports.Header
