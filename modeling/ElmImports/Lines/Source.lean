import ElmImports.Disk.Basic

/-!
# Sources of bytes

A source is what it will deliver: data, cut by each read to the size asked for, and failures, each of which
one read meets and uses up. Reading no data is the end of the input. An interrupted read is tried again, so
that no reader ever sees one.
-/

namespace ElmImports

inductive Delivery
  | data (bytes : Bytes)
  | failure (cause : OsError)

abbrev Source := List Delivery

namespace Source

/-- At most `limit` bytes, or the failure met, and what the source will deliver next. -/
def read (limit : Nat) : Source → Except OsError Bytes × Source
  | [] => (.ok [], [])
  | .failure .interrupted :: rest => read limit rest
  | .failure cause :: rest => (.error cause, rest)
  | .data bytes :: rest =>
    (.ok (bytes.take limit), if (bytes.drop limit).isEmpty then rest else .data (bytes.drop limit) :: rest)

def size : Source → Nat
  | [] => 0
  | .data bytes :: rest => bytes.length + 1 + size rest
  | .failure _ :: rest => 1 + size rest

/-! ## A read uses up what it gives -/

theorem size_read_add_length_le {limit : Nat} {source : Source} {bytes : Bytes}
    (h : (source.read limit).1 = .ok bytes) : (source.read limit).2.size + bytes.length ≤ source.size := by
  fun_induction read limit source with
  | case1 => cases h; simp [size]
  | case2 rest ih =>
    have := ih h
    simp only [size]
    omega
  | case3 cause rest _ => cases h
  | case4 data rest =>
    cases h
    simp only [List.length_take]
    split
    · simp only [size]; omega
    · simp only [size, List.length_drop]; omega

theorem size_read_lt_of_failure {limit : Nat} {source : Source} {cause : OsError}
    (h : (source.read limit).1 = .error cause) : (source.read limit).2.size < source.size := by
  fun_induction read limit source with
  | case1 => cases h
  | case2 rest ih =>
    have := ih h
    simp only [size]
    omega
  | case3 cause rest _ => simp only [size]; omega
  | case4 data rest => cases h

end Source

namespace Disk

/-- What reading the file delivers. A directory can be opened and refuses to be read. -/
def source (disk : Disk) (p : Path) : Except OsError Source := do
  match disk.node? (← disk.locate p) with
  | some (.file content) => pure [.data content]
  | some .lockedFile => throw .permissionDenied
  | some .directory => pure [.failure .isADirectory]
  | none => throw .notFound

end Disk

end ElmImports
