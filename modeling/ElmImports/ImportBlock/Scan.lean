import ElmImports.ImportBlock.Scanner
import ElmImports.Lines.Reader

/-!
# Scanning what a reader delivers

Lines are fed from a reader to a scanner until the scanner is done, when the reader is stopped, or the
input ends. A failure ends the scan without a result, whatever has been recorded.
-/

namespace ElmImports

namespace Reader

/-- Whatever a call hands out leaves less to hand out; the end leaves no more. -/
theorem size_nextLine (r : Reader) :
    r.nextLine.2.size ≤ r.size ∧ (r.nextLine.1 ≠ .ok none → r.nextLine.2.size < r.size) := by
  fun_induction nextLine r with
  | case1 r raw ready hready => simp [size, hready]
  | case2 r hsource hready => simp [size, hready, hsource]
  | case3 r source hsource hready cause rest hread =>
    have h : (source.read r.chunk).2.size < source.size := Source.size_read_lt_of_failure (by rw [hread])
    simp only [hread] at h
    simp only [size, hready, hsource, Option.elim, List.length_nil]
    omega
  | case4 r source hsource hready rest hread hheld =>
    simp [size, hready, hsource]
  | case5 r source hsource hready rest hread hheld =>
    have : 0 < r.held.length := by
      cases h : r.held <;> simp_all
    simp only [size, hready, hsource, Option.elim, List.length_nil]
    constructor
    · omega
    · intros; omega
  | case6 r source hsource hready b bytes rest hread ready held hcut ih =>
    have h : (source.read r.chunk).2.size + (b :: bytes).length ≤ source.size :=
      Source.size_read_add_length_le (by rw [hread])
    have hc := cut_length_le r.held (b :: bytes)
    simp only [hread] at h
    simp only [hcut] at hc
    have hlt : size { r with source := some rest, ready, held, bytesRead := r.bytesRead + bytes.length + 1 } ≤
        r.size := by
      simp only [size, hready, hsource, Option.elim, List.length_nil]
      omega
    exact ⟨Nat.le_trans ih.1 hlt, fun hne => Nat.lt_of_lt_of_le (ih.2 hne) hlt⟩

end Reader

structure Scan where
  scanner : Scanner
  reader : Reader
  fed : Nat

namespace Scan

def run (s : Scan) : Except OsError Scan :=
  match _hnext : s.reader.nextLine with
  | (.error cause, _) => .error cause
  | (.ok none, reader) => .ok { s with reader }
  | (.ok (some line), reader) =>
    let scanner := s.scanner.feed line
    if scanner.isDone then .ok ⟨scanner, reader.stop, s.fed + 1⟩
    else run ⟨scanner, reader, s.fed + 1⟩
termination_by s.reader.size
decreasing_by
  have h := (Reader.size_nextLine s.reader).2 (by rw [_hnext]; exact nofun)
  rw [_hnext] at h
  exact h

def ofSource (source : Source) (chunk : Nat) : Except OsError Scan :=
  run ⟨{}, .ofSource source chunk, 0⟩

end Scan

namespace Disk

/-- The import lines of a file; `none` if it cannot be opened or read. -/
def importLines? (disk : Disk) (chunk : Nat) (file : Path) : Option (List Text) :=
  match disk.source file >>= (Scan.ofSource · chunk) with
  | .ok scan => some scan.scanner.imports
  | .error _ => none

end Disk

end ElmImports
