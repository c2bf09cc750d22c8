import ElmImports.Proofs.ImportBlock.Block
import ElmImports.Proofs.Text.Words

/-!
# Block comments among the lines of a file

A block comment begins at the start of a line and ends where the first end of a comment stands behind that opening,
on the same line or on a later one. A scanner that meets it outside comments comes out of it as it went in when
nothing follows the end. When blanks follow it, a comment of several lines stays open, since only a line whose last
characters are the end counts.
-/

namespace ElmImports

def commentOpening : Text := "\x7b-".toList

def commentEnd : Text := "-\x7d".toList

/-- The first end of a comment in the lines stands in the last of them, with `behind` behind it. -/
inductive ClosesAtLast (behind : Text) : List Text → Prop
  | last {before : Text} : ¬ commentEnd <:+: before → ClosesAtLast behind [before ++ commentEnd ++ behind]
  | more {line : Text} {lines : List Text} : ¬ commentEnd <:+: line → ClosesAtLast behind lines →
      ClosesAtLast behind (line :: lines)

/-- A block comment, to whose lines all belongs but what stands `behind` its end. -/
def IsBlockComment (behind : Text) (lines : List Text) : Prop :=
  ∃ first more, lines = (commentOpening ++ first) :: more ∧ ClosesAtLast behind (first :: more)

/-! ## Lines that end a comment -/

theorem endsComment_of_not_occurs {line : Text} (h : ¬ commentEnd <:+: line) : endsComment line = false := by
  rw [Bool.eq_false_iff]
  intro he
  exact h (List.isSuffixOf_iff_suffix.mp he).isInfix

/-- Blanks behind its end keep a line from ending a comment. -/
theorem endsComment_append {behind : Text} (h : ∀ c ∈ behind, isBlank c = true) (before : Text) :
    endsComment (before ++ commentEnd ++ behind) = behind.isEmpty := by
  rcases List.eq_nil_or_concat behind with rfl | ⟨init, last, rfl⟩
  · rw [List.append_nil]
    exact List.isSuffixOf_iff_suffix.mpr (List.suffix_append before commentEnd)
  · have hlast : isBlank last = true := h last (by simp)
    rw [show (init.concat last).isEmpty = false by simp, Bool.eq_false_iff]
    intro he
    obtain ⟨start, hstart⟩ := List.isSuffixOf_iff_suffix.mp he
    have hbrace : '\x7d' = last := by
      have := congrArg List.getLast? hstart
      simpa using this
    rw [← hbrace] at hlast
    exact absurd hlast (by decide)

theorem opensWithComment_append (first : Text) : opensWithComment (commentOpening ++ first) = true :=
  List.isPrefixOf_iff_prefix.mpr (List.prefix_append commentOpening first)

theorem leavesCommentOpen_append (first : Text) :
    leavesCommentOpen (commentOpening ++ first) = ! endsComment first := by
  unfold leavesCommentOpen
  rw [opensWithComment_append, Bool.true_and]
  rfl

/-! ## Through a comment -/

namespace Scanner

theorem feedAll_append (s : Scanner) (lines more : List Text) :
    s.feedAll (lines ++ more) = (s.feedAll lines).feedAll more :=
  List.foldl_append

def stateBehind (behind : Text) (phase : Phase) : ScanState :=
  if behind.isEmpty then .outside phase else .inComment phase

theorem feed_inComment (phase : Phase) (recorded : Array Text) (line : Text) :
    feed ⟨.inComment phase, recorded⟩ line =
      ⟨if endsComment line then .outside phase else .inComment phase, recorded⟩ :=
  rfl

theorem feed_opening (phase : Phase) (recorded : Array Text) (first : Text) :
    feed ⟨.outside phase, recorded⟩ (commentOpening ++ first) =
      ⟨if endsComment first then .outside phase else .inComment phase, recorded⟩ := by
  have hopens := opensWithComment_append first
  have hleaves := leavesCommentOpen_append first
  rw [feed_outside, (other_of_opensWithComment hopens).2.1]
  cases he : endsComment first with
  | true =>
    rw [he] at hleaves
    rw [ScanState.next_of_closedComment phase hleaves hopens]
    rfl
  | false =>
    rw [he] at hleaves
    rw [ScanState.next_of_leavesCommentOpen phase hleaves]
    rfl

section
variable {behind : Text} (hbehind : ∀ c ∈ behind, isBlank c = true) (phase : Phase) (recorded : Array Text)
include hbehind

theorem feedAll_closesAtLast {lines : List Text} (h : ClosesAtLast behind lines) :
    feedAll ⟨.inComment phase, recorded⟩ lines = ⟨stateBehind behind phase, recorded⟩ := by
  induction h with
  | last _ =>
    rw [feedAll_cons, feed_inComment, endsComment_append hbehind]
    rfl
  | more hline _ ih =>
    rw [feedAll_cons, feed_inComment, endsComment_of_not_occurs hline]
    exact ih

theorem feedAll_isBlockComment {comment : List Text} (h : IsBlockComment behind comment) :
    feedAll ⟨.outside phase, recorded⟩ comment = ⟨stateBehind behind phase, recorded⟩ := by
  obtain ⟨first, more, rfl, hcloses⟩ := h
  rw [feedAll_cons, feed_opening]
  cases hcloses with
  | last _ =>
    rw [endsComment_append hbehind]
    rfl
  | more hline hmore =>
    rw [endsComment_of_not_occurs hline]
    exact feedAll_closesAtLast hbehind phase recorded hmore

end

end Scanner

/-- A block comment makes no difference to a scanner that meets it outside comments, if its end is the end of its
last line. With blanks behind the end, a comment of several lines is still open behind the last. -/
theorem feedAll_blockComment {before comment : List Text} {behind : Text} {phase : Phase}
    (hstate : (Scanner.feedAll {} before).state = .outside phase) (hbehind : ∀ c ∈ behind, isBlank c = true)
    (hcomment : IsBlockComment behind comment) :
    (behind = [] → ∀ after, Scanner.feedAll {} (before ++ comment ++ after) = Scanner.feedAll {} (before ++ after)) ∧
      (behind ≠ [] → 1 < comment.length →
        (Scanner.feedAll {} (before ++ comment)).state = .inComment phase) := by
  obtain ⟨recorded, hbefore⟩ : ∃ recorded, Scanner.feedAll {} before = ⟨.outside phase, recorded⟩ :=
    ⟨_, congrArg (Scanner.mk · _) hstate⟩
  have hthrough := Scanner.feedAll_isBlockComment hbehind phase recorded hcomment
  constructor
  · rintro rfl after
    rw [Scanner.feedAll_append, Scanner.feedAll_append, Scanner.feedAll_append, hbefore, hthrough]
    rfl
  · intro hne _
    rw [Scanner.feedAll_append, hbefore, hthrough]
    exact if_neg (by simpa using hne)

def hidingComment : List Text :=
  ["\x7b-| import".toList, "import Hidden -\x7d".toList]

theorem feedAll_hidingComment :
    (Scanner.feedAll {} ["import Html".toList]).state = .outside .readingImports ∧
      (∀ c ∈ ([] : Text), isBlank c = true) ∧ IsBlockComment [] hidingComment ∧
      ∀ after, Scanner.feedAll {} (["import Html".toList] ++ hidingComment ++ after) =
        Scanner.feedAll {} (["import Html".toList] ++ after) := by
  have hstate : (Scanner.feedAll {} ["import Html".toList]).state = .outside .readingImports := by decide +kernel
  have hcomment : IsBlockComment [] hidingComment := by
    refine ⟨"| import".toList, ["import Hidden -\x7d".toList], rfl, .more (by decide +kernel) ?_⟩
    exact @ClosesAtLast.last _ "import Hidden ".toList (by decide +kernel)
  have hbehind : ∀ c ∈ ([] : Text), isBlank c = true := List.forall_mem_nil _
  exact ⟨hstate, hbehind, hcomment, (feedAll_blockComment hstate hbehind hcomment).1 rfl⟩

/-- A blank behind the end of a comment on two lines keeps it open, and the import below it is not recorded. -/
theorem imports_blankBehindComment :
    let comment := ["\x7b- note".toList, "-\x7d ".toList]
    (Scanner.feedAll {} ["import Html".toList]).state = .outside .readingImports ∧ IsBlockComment [' '] comment ∧
      (Scanner.feedAll {} (["import Html".toList] ++ comment ++ ["import Svg".toList])).imports ≠
        (Scanner.feedAll {} (["import Html".toList] ++ ["import Svg".toList])).imports := by
  refine ⟨by decide +kernel, ?_, by decide +kernel⟩
  refine ⟨" note".toList, ["-\x7d ".toList], rfl, .more (by decide +kernel) ?_⟩
  exact @ClosesAtLast.last _ [] (by decide +kernel)

end ElmImports
