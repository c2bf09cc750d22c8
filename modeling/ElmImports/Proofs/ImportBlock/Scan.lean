import ElmImports.Proofs.Disk.Reading
import ElmImports.Proofs.ImportBlock.Block
import ElmImports.Proofs.Lines.Drain

/-!
# Scanning a file

A scan fails only if its source does, and what it records is what the scanner records when it is fed every
line, whether or not the scan stops before the last of them. So a file can be scanned just when it can be read,
and its import lines are those of its import block, however many bytes are read at a time.
-/

namespace ElmImports

namespace Scan

theorem run_spec (s : Scan) (h : s.reader.Steady) (hf : s.reader.failuresLeft = []) :
    ∃ s', s.run = .ok s' ∧
      s'.scanner.imports = (s.scanner.feedAll (s.reader.linesLeft.map Reader.decodeLine)).imports := by
  fun_induction run s with
  | case1 s cause reader hnext =>
    have hspec := Reader.nextLine_spec h
    rw [hnext] at hspec
    obtain ⟨-, -, -, hfailures, -⟩ := hspec
    rw [hf] at hfailures
    cases hfailures
  | case2 s reader hnext =>
    have hspec := Reader.nextLine_spec h
    rw [hnext] at hspec
    obtain ⟨-, -, hlines, -⟩ := hspec
    refine ⟨_, rfl, ?_⟩
    rw [hlines]
    rfl
  | case3 s line reader hnext scanner hdone =>
    have hspec := Reader.nextLine_spec h
    rw [hnext] at hspec
    obtain ⟨-, -, -, raw, rfl, hlines⟩ := hspec
    refine ⟨_, rfl, ?_⟩
    rw [hlines, List.map_cons, Scanner.feedAll_cons]
    exact (Scanner.imports_of_isDone hdone _).symm
  | case4 s line reader hnext scanner hdone ih =>
    have hspec := Reader.nextLine_spec h
    rw [hnext] at hspec
    obtain ⟨hsteady, -, hfailures, raw, rfl, hlines⟩ := hspec
    obtain ⟨s', hs', himports⟩ := ih hsteady (hfailures.trans hf)
    refine ⟨s', hs', ?_⟩
    rw [himports, hlines, List.map_cons, Scanner.feedAll_cons]

theorem ofSource_data (content : Bytes) (chunk : Nat) :
    ∃ s, ofSource [.data content] chunk = .ok s ∧
      s.scanner.imports = (importBlock ((rawLines content).map Reader.decodeLine)).filter isImportLine := by
  have hsteady := Reader.steady_ofSource [.data content] chunk
  have hreceived : Source.received [.data content] = content := by
    cases content with
    | nil => rfl
    | cons b bytes => exact List.append_nil _
  have hfailures : Source.failures [.data content] = [] := by
    cases content <;> rfl
  obtain ⟨s, hs, himports⟩ := run_spec ⟨{}, .ofSource [.data content] chunk, 0⟩ hsteady hfailures
  have hlines : (Reader.ofSource [.data content] chunk).linesLeft = rawLines content :=
    congrArg rawLines hreceived
  refine ⟨s, hs, ?_⟩
  rw [himports, hlines]
  exact congrArg Prod.fst (outcome_feedAll _)

theorem ofSource_isADirectory (chunk : Nat) : ofSource [.failure .isADirectory] chunk = .error .isADirectory := by
  have hnext : (Reader.ofSource [.failure .isADirectory] chunk).nextLine =
      (.error .isADirectory, { Reader.ofSource [.failure .isADirectory] chunk with source := some [] }) := by
    rw [Reader.nextLine]
    split
    · rename_i h; cases h
    · rename_i h; cases h
    · rename_i h; cases h; rfl
  unfold ofSource
  rw [run]
  dsimp only
  split
  · rename_i h; rw [hnext] at h; cases h; rfl
  · rename_i h; rw [hnext] at h; cases h
  · rename_i h; rw [hnext] at h; cases h

end Scan

namespace Disk

/-- A file that can be read can be scanned, and its import lines are those of its import block. -/
theorem importLines?_of_read {disk : Disk} {file : Path} {content : Bytes} (h : disk.read file = .ok content)
    (chunk : Nat) : disk.importLines? chunk file =
      some ((importBlock ((rawLines content).map Reader.decodeLine)).filter isImportLine) := by
  obtain ⟨s, hs, himports⟩ := Scan.ofSource_data content chunk
  have hscan : (disk.source file >>= (Scan.ofSource · chunk)) = .ok s := by
    rw [source_of_read h]
    exact hs
  unfold importLines?
  rw [hscan, ← himports]

theorem importLines?_of_read_error {disk : Disk} {file : Path} {cause : OsError} (h : disk.read file = .error cause)
    (chunk : Nat) : disk.importLines? chunk file = none := by
  unfold importLines?
  rcases source_of_read_error h with hsource | hsource
  · rw [hsource]
    rfl
  · have hscan : (disk.source file >>= (Scan.ofSource · chunk)) = .error .isADirectory := by
      rw [hsource]
      exact Scan.ofSource_isADirectory chunk
    rw [hscan]

end Disk

end ElmImports
