import ElmImports.ImportBlock.Scanner

/-!
# The import block of a list of lines

The import block can be read off all lines at once: the block comments are taken out, and of what is left
the block is the run of import lines and incidental lines from the first import line on. A scanner that is
fed the lines one by one records the import lines of this block, and is done when a line stands behind it.
Module lines play no part in that.
-/

namespace ElmImports

/-! ## The block -/

def behindComment (lines : List Text) : List Text :=
  (lines.dropWhile (! endsComment ·)).tail

theorem length_behindComment_le (lines : List Text) : (behindComment lines).length ≤ lines.length := by
  unfold behindComment
  have := (List.dropWhile_sublist (l := lines) (! endsComment ·)).length_le
  simp only [List.length_tail]
  omega

/-- Only a comment that opens at the start of a line counts. -/
def withoutComments : List Text → List Text
  | [] => []
  | line :: lines =>
    if leavesCommentOpen line then withoutComments (behindComment lines)
    else if opensWithComment line then withoutComments lines
    else line :: withoutComments lines
termination_by lines => lines.length
decreasing_by
  · have := length_behindComment_le lines
    simp only [List.length_cons]
    omega
  · simp
  · simp

def continuesBlock (line : Text) : Bool :=
  isImportLine line || isIncidental line

def fromFirstImport (lines : List Text) : List Text :=
  lines.dropWhile (! isImportLine ·)

def importBlock (lines : List Text) : List Text :=
  (fromFirstImport (withoutComments lines)).takeWhile continuesBlock

def behindBlock (lines : List Text) : List Text :=
  (fromFirstImport (withoutComments lines)).dropWhile continuesBlock

/-! ## Lines of two kinds -/

theorem opensWithComment_iff {line : Text} :
    opensWithComment line = true ↔ ∃ rest, line = '\x7b' :: '-' :: rest := by
  unfold opensWithComment
  rw [List.isPrefixOf_iff_prefix]
  constructor
  · rintro ⟨rest, rfl⟩
    exact ⟨rest, rfl⟩
  · rintro ⟨rest, rfl⟩
    exact ⟨rest, rfl⟩

theorem other_of_opensWithComment {line : Text} (h : opensWithComment line = true) :
    isModuleLine line = false ∧ isImportLine line = false ∧ isIncidental line = false := by
  obtain ⟨rest, rfl⟩ := opensWithComment_iff.mp h
  exact ⟨rfl, rfl, rfl⟩

theorem other_of_isModuleLine {line : Text} (h : isModuleLine line = true) :
    isImportLine line = false ∧ opensWithComment line = false := by
  unfold isModuleLine at h
  simp only [Bool.or_eq_true, List.isPrefixOf_iff_prefix] at h
  rcases h with (⟨rest, rfl⟩ | ⟨rest, rfl⟩) | ⟨rest, rfl⟩
  · exact ⟨rfl, rfl⟩
  · exact ⟨rfl, rfl⟩
  · exact ⟨rfl, rfl⟩

theorem leavesCommentOpen_of_not_opens {line : Text} (h : opensWithComment line = false) :
    leavesCommentOpen line = false := by
  simp [leavesCommentOpen, h]

/-! ## One line -/

namespace ScanState

theorem next_of_leavesCommentOpen (phase : Phase) {line : Text} (h : leavesCommentOpen line = true) :
    (outside phase).next line = .inComment phase := by
  have ho : opensWithComment line = true := by
    simp only [leavesCommentOpen, Bool.and_eq_true] at h
    exact h.1
  obtain ⟨hm, hi, hn⟩ := other_of_opensWithComment ho
  cases phase <;> simp [next, afterOther, h, ho, hm, hi, hn]

theorem next_of_closedComment (phase : Phase) {line : Text} (h : leavesCommentOpen line = false)
    (ho : opensWithComment line = true) : (outside phase).next line = .outside phase := by
  obtain ⟨hm, hi, hn⟩ := other_of_opensWithComment ho
  cases phase <;> simp [next, afterOther, h, ho, hm, hi, hn]

theorem next_reading {line : Text} (ho : opensWithComment line = false) :
    (outside .readingImports).next line =
      if continuesBlock line then .outside .readingImports else .done := by
  by_cases hc : continuesBlock line = true
  · have hc' : (isImportLine line || isIncidental line) = true := hc
    simp [next, hc, hc']
  · have hc' : (isImportLine line || isIncidental line) = false := by simpa [continuesBlock] using hc
    simp [next, hc, hc', ho]

/-- Ahead of the block only an import line takes the scanner to where imports are read. -/
theorem next_awaiting {phase : Phase} (hp : phase ≠ .readingImports) {line : Text}
    (ho : opensWithComment line = false) :
    ∃ phase', (outside phase).next line = .outside phase' ∧
      (phase' = .readingImports ↔ isImportLine line = true) := by
  have hl := leavesCommentOpen_of_not_opens ho
  cases hm : isModuleLine line with
  | true =>
    have hi := (other_of_isModuleLine hm).1
    refine ⟨.awaitingImports, ?_, by simp [hi]⟩
    cases phase <;> simp [next, afterOther, hl, hi, hm] at hp ⊢
  | false =>
    cases hi : isImportLine line with
    | true =>
      refine ⟨.readingImports, ?_, by simp⟩
      cases phase <;> simp [next, hi, hm] at hp ⊢
    | false =>
      refine ⟨phase, ?_, by simp [hp]⟩
      cases phase <;> simp [next, afterOther, hl, hi, hm] at hp ⊢

end ScanState

/-! ## All lines -/

namespace Scanner

def feedAll (s : Scanner) (lines : List Text) : Scanner :=
  lines.foldl feed s

def outcome (s : Scanner) : List Text × Bool :=
  (s.imports, s.isDone)

theorem feedAll_cons (s : Scanner) (line : Text) (lines : List Text) :
    s.feedAll (line :: lines) = (s.feed line).feedAll lines :=
  rfl

theorem feed_of_not_records {s : Scanner} {line : Text} (h : s.state.records line = false) :
    s.feed line = { s with state := s.state.next line } := by
  simp [feed, h]

theorem feed_outside (phase : Phase) (recorded : Array Text) (line : Text) :
    feed ⟨.outside phase, recorded⟩ line =
      ⟨(ScanState.outside phase).next line, if isImportLine line then recorded.push line else recorded⟩ :=
  rfl

theorem feedAll_done (recorded : Array Text) (lines : List Text) :
    feedAll ⟨.done, recorded⟩ lines = ⟨.done, recorded⟩ := by
  induction lines with
  | nil => rfl
  | cons line lines ih =>
    rw [feedAll_cons, feed_of_not_records rfl]
    exact ih

theorem imports_of_isDone {s : Scanner} (h : s.isDone = true) (lines : List Text) :
    (s.feedAll lines).imports = s.imports := by
  obtain ⟨state, recorded⟩ := s
  obtain rfl := isDone_iff.mp h
  rw [feedAll_done]

theorem outcome_inComment (phase : Phase) (recorded : Array Text) (lines : List Text) :
    (feedAll ⟨.inComment phase, recorded⟩ lines).outcome =
      (feedAll ⟨.outside phase, recorded⟩ (behindComment lines)).outcome := by
  induction lines with
  | nil => rfl
  | cons line lines ih =>
    rw [feedAll_cons, feed_of_not_records rfl]
    by_cases he : endsComment line = true
    · simp [ScanState.next, behindComment, he]
    · simp only [ScanState.next, he, Bool.false_eq_true, if_false]
      rw [ih]
      simp [behindComment, he]

def counted (phase : Phase) (lines : List Text) : List Text :=
  if phase = .readingImports then lines else fromFirstImport lines

theorem outcome_outside (phase : Phase) (recorded : Array Text) (lines : List Text) :
    (feedAll ⟨.outside phase, recorded⟩ lines).outcome =
      (recorded.toList ++ ((counted phase (withoutComments lines)).takeWhile continuesBlock).filter isImportLine,
        ! ((counted phase (withoutComments lines)).dropWhile continuesBlock).isEmpty) := by
  fun_induction withoutComments lines generalizing phase recorded with
  | case1 => cases phase <;> simp [feedAll, outcome, imports, isDone, counted, fromFirstImport]
  | case2 line lines hopen ih =>
    have hi : isImportLine line = false := by
      simp only [leavesCommentOpen, Bool.and_eq_true] at hopen
      exact (other_of_opensWithComment hopen.1).2.1
    rw [feedAll_cons, feed_of_not_records (by exact hi), ScanState.next_of_leavesCommentOpen phase hopen,
      outcome_inComment]
    exact ih phase recorded
  | case3 line lines hclosed ho ih =>
    have hi := (other_of_opensWithComment ho).2.1
    rw [feedAll_cons, feed_of_not_records (by exact hi),
      ScanState.next_of_closedComment phase (by simpa using hclosed) ho]
    exact ih phase recorded
  | case4 line lines _ ho ih =>
    have ho : opensWithComment line = false := by simpa using ho
    rw [feedAll_cons, feed_outside]
    by_cases hp : phase = .readingImports
    · subst hp
      rw [ScanState.next_reading ho]
      cases hc : continuesBlock line with
      | true =>
        rw [if_pos rfl, ih]
        cases hi : isImportLine line <;> simp [counted, hc, hi]
      | false =>
        have hi : isImportLine line = false := by
          simp only [continuesBlock, Bool.or_eq_false_iff] at hc
          exact hc.1
        rw [if_neg Bool.false_ne_true, feedAll_done]
        simp [outcome, imports, isDone, counted, hc, hi]
    · obtain ⟨phase', hnext, hreading⟩ := ScanState.next_awaiting hp ho
      rw [hnext, ih]
      cases hi : isImportLine line with
      | true =>
        have hc : continuesBlock line = true := by simp [continuesBlock, hi]
        simp [counted, fromFirstImport, hp, hreading.mpr hi, hi, hc]
      | false =>
        have hp' : phase' ≠ .readingImports := fun h => by simp [hreading.mp h] at hi
        simp [counted, fromFirstImport, hp, hp', hi]

end Scanner

/-! ## Module lines -/

theorem behindComment_append (lines rest : List Text) :
    behindComment (lines ++ rest) =
      if (lines.dropWhile (! endsComment ·)).isEmpty then behindComment rest else behindComment lines ++ rest := by
  unfold behindComment
  rw [List.dropWhile_append]
  split
  · rfl
  · rename_i h
    exact List.tail_append_of_ne_nil (by simpa using h)

/-- Behind `before` either a comment is open, the rest of which is skipped, or nothing is. -/
theorem withoutComments_append (before : List Text) : ∃ skip, (skip = behindComment ∨ skip = id) ∧
    ∀ rest, withoutComments (before ++ rest) = withoutComments before ++ withoutComments (skip rest) := by
  fun_induction withoutComments before with
  | case1 => exact ⟨id, .inr rfl, fun _ => rfl⟩
  | case2 line lines hopen ih =>
    by_cases he : (lines.dropWhile (! endsComment ·)).isEmpty = true
    · have hnone : behindComment lines = [] := by
        unfold behindComment
        rw [List.isEmpty_iff.mp he, List.tail_nil]
      refine ⟨behindComment, .inl rfl, fun rest => ?_⟩
      rw [List.cons_append, withoutComments, if_pos hopen, behindComment_append, if_pos he, hnone,
        withoutComments, List.nil_append]
    · obtain ⟨skip, hskip, ih⟩ := ih
      refine ⟨skip, hskip, fun rest => ?_⟩
      rw [List.cons_append, withoutComments, if_pos hopen, behindComment_append, if_neg he, ih]
  | case3 line lines hopen ho ih =>
    obtain ⟨skip, hskip, ih⟩ := ih
    refine ⟨skip, hskip, fun rest => ?_⟩
    rw [List.cons_append, withoutComments, if_neg hopen, if_pos ho, ih]
  | case4 line lines hopen ho ih =>
    obtain ⟨skip, hskip, ih⟩ := ih
    refine ⟨skip, hskip, fun rest => ?_⟩
    rw [List.cons_append, withoutComments, if_neg hopen, if_neg ho, ih, List.cons_append]

/-- A line that is not taken out has no open comment ahead of it. -/
theorem withoutComments_append_of_kept {before : List Text} {line : Text}
    (h : withoutComments (before ++ [line]) = withoutComments before ++ [line]) (rest : List Text) :
    withoutComments (before ++ rest) = withoutComments before ++ withoutComments rest := by
  obtain ⟨skip, hskip, happend⟩ := withoutComments_append before
  rcases hskip with rfl | rfl
  · have hnone : behindComment [line] = [] := by
      unfold behindComment
      cases he : endsComment line <;> simp [he]
    rw [happend, hnone, withoutComments] at h
    simp at h
  · exact happend rest

theorem fromFirstImport_insert {before : List Text} {line : Text} (hm : isModuleLine line = true)
    (hkept : withoutComments (before ++ [line]) = withoutComments before ++ [line])
    (hnone : ∀ l ∈ withoutComments before, isImportLine l = false) (after : List Text) :
    fromFirstImport (withoutComments (before ++ line :: after)) =
      fromFirstImport (withoutComments (before ++ after)) := by
  obtain ⟨hi, ho⟩ := other_of_isModuleLine hm
  have hl := leavesCommentOpen_of_not_opens ho
  have hskip : ∀ l ∈ withoutComments before, (! isImportLine l) = true := fun l h => by simp [hnone l h]
  rw [withoutComments_append_of_kept hkept, withoutComments_append_of_kept hkept, withoutComments,
    if_neg (by simp [hl]), if_neg (by simp [ho])]
  unfold fromFirstImport
  rw [List.dropWhile_append_of_pos hskip, List.dropWhile_append_of_pos hskip, List.dropWhile_cons_of_pos (by simp [hi])]

/-! ## What a scanner records -/

theorem outcome_feedAll (lines : List Text) :
    (Scanner.feedAll {} lines).outcome =
      ((importBlock lines).filter isImportLine, ! (behindBlock lines).isEmpty) := by
  have h := Scanner.outcome_outside .awaitingModule #[] lines
  rw [List.nil_append] at h
  exact h

/-- A scanner records the import lines of the block and is done when a line stands behind it; a module line
outside comments and ahead of the first import makes no difference. -/
theorem imports_feedAll (lines : List Text) :
    (Scanner.feedAll {} lines).imports = (importBlock lines).filter isImportLine ∧
      ((Scanner.feedAll {} lines).isDone = true ↔ behindBlock lines ≠ []) ∧
      ∀ before line after, lines = before ++ line :: after → isModuleLine line = true →
        withoutComments (before ++ [line]) = withoutComments before ++ [line] →
        (∀ l ∈ withoutComments before, isImportLine l = false) →
        (Scanner.feedAll {} (before ++ after)).imports = (Scanner.feedAll {} lines).imports ∧
          (Scanner.feedAll {} (before ++ after)).isDone = (Scanner.feedAll {} lines).isDone := by
  have houtcome := outcome_feedAll lines
  have himports : (Scanner.feedAll {} lines).imports = (importBlock lines).filter isImportLine :=
    congrArg Prod.fst houtcome
  have hdone : (Scanner.feedAll {} lines).isDone = ! (behindBlock lines).isEmpty :=
    congrArg Prod.snd houtcome
  refine ⟨himports, ?_, ?_⟩
  · rw [hdone]
    simp
  · intro before line after hlines hm hkept hnone
    have hsame : (Scanner.feedAll {} (before ++ after)).outcome = (Scanner.feedAll {} lines).outcome := by
      rw [outcome_feedAll, outcome_feedAll, hlines]
      unfold importBlock behindBlock
      rw [fromFirstImport_insert hm hkept hnone]
    exact ⟨congrArg Prod.fst hsame, congrArg Prod.snd hsame⟩

def commentedHead : List Text :=
  ["\x7b-".toList, "import Hidden".toList, "-\x7d".toList, "x".toList]

theorem imports_feedAll_commentedHead :
    isModuleLine "port module Main".toList = true ∧
      withoutComments (commentedHead ++ ["port module Main".toList]) =
        withoutComments commentedHead ++ ["port module Main".toList] ∧
      (∀ l ∈ withoutComments commentedHead, isImportLine l = false) ∧
      (Scanner.feedAll {} (commentedHead ++ ["import Html".toList])).imports =
        (Scanner.feedAll {} (commentedHead ++ ["port module Main".toList, "import Html".toList])).imports := by
  have hm : isModuleLine "port module Main".toList = true := rfl
  have hhead : withoutComments commentedHead = ["x".toList] := by decide +kernel
  have hkept : withoutComments (commentedHead ++ ["port module Main".toList]) =
      withoutComments commentedHead ++ ["port module Main".toList] := by decide +kernel
  have hnone : ∀ l ∈ withoutComments commentedHead, isImportLine l = false := by
    rw [hhead]
    decide
  have h := imports_feedAll (commentedHead ++ ["port module Main".toList, "import Html".toList])
  exact ⟨hm, hkept, hnone, (h.2.2 _ _ _ rfl hm hkept hnone).1⟩

end ElmImports
