import ElmImports.Proofs.ImportBlock.Comments
import ElmImports.Proofs.ImportBlock.Scan
import ElmImports.Proofs.Lines.Ahead
import ElmImports.Proofs.Text.Pieces
import ElmImports.Proofs.Text.Returns
import Mathlib.Data.List.Infix

/-!
# Nothing behind the import block is looked at

The line that ends the import block is the last that a scan asks for. So what comes behind it, bytes of any kind or a
failure, makes no difference, and less than one chunk of it is read. A failure that comes before the block has ended
is met, and ends the scan without a result.
-/

namespace ElmImports

/-! ## The line that ends the block -/

namespace Scanner

/-- The last of the lines makes the scanner done, and none before it. -/
def DoneWith (s : Scanner) (lines : List Text) : Prop :=
  (s.feedAll lines).isDone = true ∧ (s.feedAll lines.dropLast).isDone = false

variable {s : Scanner} {lines : List Text}

theorem isDone_feedAll (h : s.isDone = true) (lines : List Text) : (s.feedAll lines).isDone = true := by
  obtain ⟨state, recorded⟩ := s
  obtain rfl := isDone_iff.mp h
  rw [feedAll_done]
  rfl

theorem not_isDone_of_feedAll (h : (s.feedAll lines).isDone = false) : s.isDone = false := by
  rw [Bool.eq_false_iff]
  exact fun hdone => Bool.false_ne_true (h.symm.trans (isDone_feedAll hdone lines))

theorem DoneWith.ne_nil (h : s.DoneWith lines) : lines ≠ [] := by
  rintro rfl
  exact Bool.false_ne_true (h.2.symm.trans h.1)

theorem DoneWith.exists_concat {α : Type} {f : α → Text} {as : List α} (h : s.DoneWith (as.map f)) :
    ∃ init last, as = init ++ [last] := by
  have hne : as ≠ [] := mt List.map_eq_nil_iff.mpr h.ne_nil
  obtain ⟨init, last, hconcat⟩ := (List.eq_nil_or_concat as).resolve_left hne
  rw [List.concat_eq_append] at hconcat
  exact ⟨init, last, hconcat⟩

theorem DoneWith.cons {line : Text} (h : (s.feed line).DoneWith lines) : s.DoneWith (line :: lines) := by
  refine ⟨h.1, ?_⟩
  rw [List.dropLast_cons_of_ne_nil h.ne_nil]
  exact h.2

/-- A scanner that becomes done does so with one of the lines. -/
theorem exists_doneWith : ∀ {lines : List Text} {s : Scanner}, s.isDone = false → (s.feedAll lines).isDone = true →
    ∃ before after, lines = before ++ after ∧ s.DoneWith before
  | [], _, hs, h => absurd (hs.symm.trans h) Bool.false_ne_true
  | line :: lines, s, hs, h => by
    cases hline : (s.feed line).isDone with
    | true => exact ⟨[line], lines, rfl, hline, hs⟩
    | false =>
      obtain ⟨before, after, rfl, hdone⟩ := exists_doneWith hline h
      exact ⟨line :: before, after, rfl, hdone.cons⟩

end Scanner

/-! ## Bytes as lines -/

theorem withFeeds_rawLines {bytes : Bytes} (h : bytes = [] ∨ bytes.getLast? = some lineFeed) :
    withFeeds (rawLines bytes) = bytes := by
  induction bytes using lineInduction lineFeed with
  | last line hline =>
    rcases h with rfl | hlast
    · rfl
    · exact absurd (List.mem_of_getLast? hlast) hline
  | line line rest hline ih =>
    have hlast := h.resolve_left (List.append_ne_nil_of_right_ne_nil _ (List.cons_ne_nil _ _))
    rw [rawLines_append_lineFeed hline, withFeeds_cons, ih]
    cases rest with
    | nil => exact .inl rfl
    | cons b rest =>
      rw [List.getLast?_append_cons, List.getLast?_cons_cons] at hlast
      exact .inr hlast

theorem not_mem_of_mem_rawLines {bytes line : Bytes} (h : line ∈ rawLines bytes) : lineFeed ∉ line := by
  have hpiece : line ∈ bytes.splitOn lineFeed := by
    unfold rawLines at h
    dsimp only at h
    split at h
    · exact List.dropLast_subset _ h
    · exact h
  exact Pieces.sep_not_mem hpiece

/-- Bytes are whole lines and then a part without a line feed. -/
theorem exists_withFeeds (bytes : Bytes) : ∃ lines rest, bytes = withFeeds lines ++ rest ∧
    (∀ line ∈ lines, lineFeed ∉ line) ∧ lineFeed ∉ rest := by
  induction bytes using lineInduction lineFeed with
  | last line hline => exact ⟨[], line, rfl, List.forall_mem_nil _, hline⟩
  | line line rest hline ih =>
    obtain ⟨lines, last, rfl, hlines, hlast⟩ := ih
    refine ⟨line :: lines, last, ?_, List.forall_mem_cons.mpr ⟨hline, hlines⟩, hlast⟩
    rw [withFeeds_cons, List.append_assoc, List.cons_append]

/-- The import block of a file that begins with `bytes` ends with the last of their lines, whatever follows. -/
def EndsBlock (bytes : Bytes) : Prop :=
  bytes.getLast? = some lineFeed ∧ Scanner.DoneWith {} ((rawLines bytes).map Reader.decodeLine)

instance (s : Scanner) (lines : List Text) : Decidable (s.DoneWith lines) :=
  inferInstanceAs (Decidable (_ ∧ _))

instance (bytes : Bytes) : Decidable (EndsBlock bytes) :=
  inferInstanceAs (Decidable (_ ∧ _))

/-! ## Scans -/

namespace Scan
variable {s : Scan} {raw : Bytes} {lines : List Bytes} {more : Bytes}

theorem run_of_line {line : Text} (h : s.reader.nextLine.1 = .ok (some line)) :
    s.run = if (s.scanner.feed line).isDone then .ok ⟨s.scanner.feed line, s.reader.nextLine.2.stop, s.fed + 1⟩
      else run ⟨s.scanner.feed line, s.reader.nextLine.2, s.fed + 1⟩ := by
  rw [run]
  split
  · rename_i hnext
    rw [hnext] at h
    cases h
  · rename_i hnext
    rw [hnext] at h
    cases h
  · rename_i hnext
    rw [hnext] at h ⊢
    cases h
    rfl

theorem run_of_failure {cause : OsError} (h : s.reader.nextLine.1 = .error cause) : s.run = .error cause := by
  rw [run]
  split
  · rename_i hnext
    rw [hnext] at h
    cases h
    rfl
  · rename_i hnext
    rw [hnext] at h
    cases h
  · rename_i hnext
    rw [hnext] at h
    cases h

/-- A scan goes through the lines that are to come as long as the scanner is not done. -/
theorem run_through : ∀ {lines : List Bytes} {s : Scan}, s.reader.Tidy → (∀ line ∈ lines, lineFeed ∉ line) →
    s.reader.pending = withFeeds lines ++ more → (s.scanner.feedAll (lines.map Reader.decodeLine)).isDone = false →
    s.run = run ⟨s.scanner.feedAll (lines.map Reader.decodeLine), Reader.afterCalls lines.length s.reader,
        s.fed + lines.length⟩ ∧
      s.reader.Past (withFeeds lines) (Reader.afterCalls lines.length s.reader)
  | [], _, htidy, _, _, _ => ⟨rfl, .refl htidy⟩
  | raw :: lines, s, htidy, hlines, hpending, hdone => by
    obtain ⟨hraw, hlines⟩ := List.forall_mem_cons.mp hlines
    rw [withFeeds_cons, List.append_assoc, List.cons_append] at hpending
    obtain ⟨hline, hpast, -⟩ := Reader.nextLine_of_pending htidy hraw hpending
    have hmore : s.reader.nextLine.2.pending = withFeeds lines ++ more := by
      have hboth := hpast.pending.symm.trans hpending
      rw [List.append_assoc] at hboth
      exact (List.cons.inj (List.append_cancel_left hboth)).2
    rw [List.map_cons, Scanner.feedAll_cons] at hdone
    let next : Scan := ⟨s.scanner.feed (Reader.decodeLine raw), s.reader.nextLine.2, s.fed + 1⟩
    have hnext : s.run = next.run := by
      rw [run_of_line hline, Scanner.not_isDone_of_feedAll hdone, if_neg Bool.false_ne_true]
    obtain ⟨hrun, hpast'⟩ := run_through (s := next) hpast.tidy hlines hmore hdone
    have hfed : next.fed + lines.length = s.fed + (raw :: lines).length := by
      rw [List.length_cons, Nat.add_comm lines.length, ← Nat.add_assoc]
    refine ⟨?_, ?_⟩
    · rw [hnext, hrun, hfed]
      rfl
    · have hboth := hpast.trans hpast'
      rwa [List.append_assoc, List.singleton_append, ← withFeeds_cons] at hboth

/-- The scan stops behind the line that makes the scanner done, when less than a chunk beyond it has been read. -/
theorem run_of_doneWith (htidy : s.reader.Tidy) (hlines : ∀ line ∈ lines, lineFeed ∉ line)
    (hpending : s.reader.pending = withFeeds lines ++ more)
    (hdone : s.scanner.DoneWith (lines.map Reader.decodeLine)) :
    s.run = .ok ⟨s.scanner.feedAll (lines.map Reader.decodeLine), (Reader.afterCalls lines.length s.reader).stop,
        s.fed + lines.length⟩ ∧
      s.reader.Past (withFeeds lines) (Reader.afterCalls lines.length s.reader) ∧
      (Reader.afterCalls lines.length s.reader).backlog.length < s.reader.chunk := by
  obtain ⟨init, last, rfl⟩ := hdone.exists_concat
  obtain ⟨hinit, hlast⟩ := List.forall_mem_append.mp hlines
  have hlast : lineFeed ∉ last := hlast last List.mem_cons_self
  obtain ⟨hdone, hnot⟩ := hdone
  rw [List.map_append, List.map_singleton] at hdone hnot ⊢
  rw [List.dropLast_concat] at hnot
  have hsplit : withFeeds (init ++ [last]) = withFeeds init ++ (last ++ [lineFeed]) := by
    rw [withFeeds_append, withFeeds_cons]
    rfl
  rw [hsplit, List.append_assoc, List.append_assoc, List.singleton_append] at hpending
  obtain ⟨hrun, hpast⟩ := run_through htidy hinit hpending hnot
  have hpending' := List.append_cancel_left (hpast.pending.symm.trans hpending)
  obtain ⟨hline, hpast', hahead⟩ := Reader.nextLine_of_pending hpast.tidy hlast hpending'
  have hfeed : (s.scanner.feedAll (init.map Reader.decodeLine ++ [Reader.decodeLine last])) =
      (s.scanner.feedAll (init.map Reader.decodeLine)).feed (Reader.decodeLine last) := Scanner.feedAll_append _ _ _
  rw [List.length_append, List.length_singleton, Reader.afterCalls_succ, hsplit, hrun, run_of_line hline, ← hfeed,
    if_pos hdone]
  exact ⟨rfl, hpast.trans hpast', hpast.chunk ▸ hahead⟩

theorem run_of_failure_pending {cause : OsError} (htidy : s.reader.Tidy) (hlines : ∀ line ∈ lines, lineFeed ∉ line)
    (hmore : lineFeed ∉ more) (hpending : s.reader.pending = withFeeds lines ++ more)
    (hfailure : s.reader.failuresLeft.head? = some cause)
    (hdone : (s.scanner.feedAll (lines.map Reader.decodeLine)).isDone = false) : s.run = .error cause := by
  obtain ⟨hrun, hpast⟩ := run_through htidy hlines hpending hdone
  rw [hrun]
  refine run_of_failure (Reader.nextLine_of_failure hpast.tidy ?_ ?_)
  · rwa [← List.append_cancel_left (hpending.symm.trans hpast.pending)]
  · rw [hpast.failures]
    exact hfailure

end Scan

/-! ## Sources -/

theorem EndsBlock.withFeeds {p : Bytes} (h : EndsBlock p) : withFeeds (rawLines p) = p :=
  withFeeds_rawLines (.inr h.1)

theorem endsBlock_withFeeds {lines : List Bytes} (hlines : ∀ line ∈ lines, lineFeed ∉ line)
    (hdone : Scanner.DoneWith {} (lines.map Reader.decodeLine)) : EndsBlock (ElmImports.withFeeds lines) := by
  obtain ⟨init, last, hconcat⟩ := hdone.exists_concat
  refine ⟨?_, by rwa [rawLines_withFeeds hlines]⟩
  rw [hconcat, withFeeds_append, withFeeds_cons, ← List.append_assoc, List.getLast?_append_cons]
  rfl

namespace Scan

theorem ofSource_of_endsBlock {source : Source} {p : Bytes} (hp : EndsBlock p) (hdelivered : p <+: source.unbroken)
    (chunk : Nat) : ∃ scan, ofSource source chunk = .ok scan ∧
      scan.scanner = Scanner.feedAll {} ((rawLines p).map Reader.decodeLine) ∧
      scan.reader = (Reader.afterCalls (rawLines p).length (.ofSource source chunk)).stop ∧
      ∃ ahead, p ++ ahead <+: source.unbroken ∧ scan.reader.bytesRead = p.length + ahead.length ∧
        ahead.length ≤ max chunk 1 - 1 := by
  obtain ⟨more, hmore⟩ := hdelivered
  let start : Scan := ⟨{}, .ofSource source chunk, 0⟩
  have hpending : start.reader.pending = source.unbroken := rfl
  have hlines : start.reader.pending = withFeeds (rawLines p) ++ more := by rw [hpending, hp.withFeeds, hmore]
  obtain ⟨hrun, hpast, hahead⟩ :=
    run_of_doneWith (Reader.tidy_ofSource source chunk) (fun _ => not_mem_of_mem_rawLines) hlines hp.2
  have hread := hpast.pending
  have hcounted := hpast.counted
  rw [hp.withFeeds] at hread hcounted
  refine ⟨_, hrun, rfl, rfl, (Reader.afterCalls (rawLines p).length start.reader).backlog, ?_, ?_, ?_⟩
  · rw [← hpending, hread, List.prefix_append_right_inj]
    exact List.prefix_append _ _
  · exact hcounted.trans (by rw [show start.reader.bytesRead = 0 from rfl, Nat.zero_add])
  · exact Nat.le_sub_one_of_lt hahead

theorem ofSource_of_failure {source : Source} {cause : OsError} (hfailure : source.failures.head? = some cause)
    (hnot : ∀ p, EndsBlock p → ¬ p <+: source.unbroken) (chunk : Nat) : ofSource source chunk = .error cause := by
  obtain ⟨lines, rest, hsplit, hlines, hrest⟩ := exists_withFeeds source.unbroken
  cases hdone : (Scanner.feedAll {} (lines.map Reader.decodeLine)).isDone with
  | false => exact run_of_failure_pending (Reader.tidy_ofSource source chunk) hlines hrest hsplit hfailure hdone
  | true =>
    -- some of the lines would end the block ahead of the failure
    obtain ⟨before, after, hboth, hbefore⟩ := Scanner.exists_doneWith rfl hdone
    obtain ⟨first, last, rfl, rfl, -⟩ := List.map_eq_append_iff.mp hboth
    have hfirst : ∀ line ∈ first, lineFeed ∉ line := fun line hl => hlines line (List.mem_append_left _ hl)
    refine absurd ?_ (hnot _ (endsBlock_withFeeds hfirst hbefore))
    rw [hsplit, withFeeds_append, List.append_assoc]
    exact List.prefix_append _ _

/-- Once bytes that end the import block have been delivered, a scan reads less than one chunk more and gives the
lines of those bytes that record imports, whatever else would be delivered: the reader is asked for no line behind
the block, and gives its source up. A failure that is delivered before that is what the scan gives. -/
theorem stops_behind_block (source : Source) (chunk : Nat) :
    (∀ p, EndsBlock p → p <+: source.unbroken → ∃ scan, ofSource source chunk = .ok scan ∧
        scan.scanner = Scanner.feedAll {} ((rawLines p).map Reader.decodeLine) ∧
        scan.reader = (Reader.afterCalls (rawLines p).length (.ofSource source chunk)).stop ∧
        scan.reader.source = none ∧
        ∃ ahead, p ++ ahead <+: source.unbroken ∧ scan.reader.bytesRead = p.length + ahead.length ∧
          ahead.length ≤ max chunk 1 - 1) ∧
      ∀ cause, source.failures.head? = some cause → (∀ p, EndsBlock p → ¬ p <+: source.unbroken) →
        ofSource source chunk = .error cause := by
  refine ⟨fun p hp hdelivered => ?_, fun cause hfailure hnot => ofSource_of_failure hfailure hnot chunk⟩
  obtain ⟨scan, hscan, hscanner, hreader, hahead⟩ := ofSource_of_endsBlock hp hdelivered chunk
  exact ⟨scan, hscan, hscanner, hreader, by rw [hreader]; rfl, hahead⟩

/-- A block that ends, and behind it a byte that is not text and a failure; and a block that a failure cuts short. -/
def brokenSources : Source × Source :=
  let text (s : String) := Utf8.encode s.toList
  ([.data (text "import Html\nimp"), .failure .interrupted, .data (text "ort Svg\n\nview = 1\n" ++ [0xFF]),
      .failure .isADirectory],
    [.data (text "import Html\nimport Svg"), .failure .isADirectory, .data (text "\nview = 1\n")])

theorem stops_behind_block_brokenSources :
    let p := Utf8.encode "import Html\nimport Svg\n\nview = 1\n".toList
    (EndsBlock p ∧ p <+: brokenSources.1.unbroken ∧ ∃ scan, ofSource brokenSources.1 8 = .ok scan ∧
        scan.scanner.imports = ["import Html".toList, "import Svg".toList] ∧ scan.reader.source = none) ∧
      brokenSources.2.failures.head? = some .isADirectory ∧
      (∀ p, EndsBlock p → ¬ p <+: brokenSources.2.unbroken) ∧ ofSource brokenSources.2 8 = .error .isADirectory := by
  intro p
  have hp : EndsBlock p := by decide +kernel
  have hdelivered : p <+: brokenSources.1.unbroken := by decide +kernel
  have hnot : ∀ p ∈ brokenSources.2.unbroken.inits, ¬ EndsBlock p := by decide +kernel
  have hnot : ∀ p, EndsBlock p → ¬ p <+: brokenSources.2.unbroken :=
    fun p hp hdelivered => hnot p ((List.mem_inits _ _).mpr hdelivered) hp
  obtain ⟨scan, hscan, hscanner, -, hsource, -⟩ := (stops_behind_block brokenSources.1 8).1 p hp hdelivered
  refine ⟨⟨hp, hdelivered, scan, hscan, ?_, hsource⟩, rfl, hnot, (stops_behind_block brokenSources.2 8).2 _ rfl hnot⟩
  rw [hscanner]
  decide +kernel

end Scan

/-- What stands behind the import block of a file has no bearing on its import lines. -/
theorem Disk.importLines?_of_endsBlock {disk : Disk} {file : Path} {content p : Bytes}
    (h : disk.read file = .ok content) (hp : EndsBlock p) (hdelivered : p <+: content) (chunk : Nat) :
    disk.importLines? chunk file = some (Scanner.feedAll {} ((rawLines p).map Reader.decodeLine)).imports := by
  have hunbroken : p <+: Source.unbroken [.data content] := by
    cases content with
    | nil => exact hdelivered
    | cons b bytes => rwa [Source.unbroken, Source.unbroken, List.append_nil]
  obtain ⟨scan, hscan, hscanner, -⟩ := Scan.ofSource_of_endsBlock hp hunbroken chunk
  have hfile : (disk.source file >>= (Scan.ofSource · chunk)) = .ok scan := by
    rw [source_of_read h]
    exact hscan
  unfold importLines?
  rw [hfile, ← hscanner]

end ElmImports
