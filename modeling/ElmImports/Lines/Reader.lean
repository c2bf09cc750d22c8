import ElmImports.Lines.Source

/-!
# Reading lines chunk by chunk

A reader asks its source for one chunk at a time. Lines that a chunk completes are queued; what follows the
last line feed is held back until a later chunk, or the end of the input, completes it. A line loses one
carriage return at its end and is decoded with U+FFFD for what is not UTF-8.
-/

namespace ElmImports

structure Reader where
  /-- `none` once the input has ended or reading was stopped. -/
  source : Option Source
  /-- How many bytes are asked for at a time. -/
  chunk : Nat
  /-- The bytes of the line that is not complete, the last first. -/
  held : Bytes := []
  /-- The lines that are complete and not handed out. -/
  ready : List Bytes := []
  bytesRead : Nat := 0

namespace Reader

/-- A reader asks for at least one byte at a time. -/
def ofSource (source : Source) (chunk : Nat) : Reader where
  source := some source
  chunk := max chunk 1

def isStopped (r : Reader) : Bool :=
  r.source.isNone

def stop (r : Reader) : Reader :=
  { r with source := none, held := [], ready := [] }

/-- The lines that `bytes` completes behind the bytes held back, and the bytes held back after them. -/
def cut : Bytes → Bytes → List Bytes × Bytes
  | held, [] => ([], held)
  | held, b :: bytes =>
    if b = 0x0A then
      let (lines, rest) := cut [] bytes
      (held.reverse :: lines, rest)
    else cut (b :: held) bytes

def decodeLine (raw : Bytes) : Text :=
  Utf8.decodeLossy (if raw.getLast? = some 0x0D then raw.dropLast else raw)

def size (r : Reader) : Nat :=
  (r.source.elim 0 Source.size) + r.ready.length + r.held.length

theorem cut_length_le (held bytes : Bytes) :
    (cut held bytes).1.length + (cut held bytes).2.length ≤ held.length + bytes.length := by
  fun_induction cut held bytes with
  | case1 => simp
  | case2 held bytes lines rest h ih =>
    simp only [h, List.length_nil] at ih
    simp only [List.length_cons]
    omega
  | case3 held b bytes _ ih =>
    simp only [List.length_cons] at ih ⊢
    omega

/-- The next line, or `none` when there is no more. A failure of the source is handed on once and loses nothing. -/
def nextLine (r : Reader) : Except OsError (Option Text) × Reader :=
  match r.ready, _hsource : r.source with
  | raw :: ready, _ => (.ok (some (decodeLine raw)), { r with ready })
  | [], none => (.ok none, r)
  | [], some source =>
    match _hread : source.read r.chunk with
    | (.error cause, rest) => (.error cause, { r with source := some rest })
    | (.ok [], _) =>
      if r.held.isEmpty then (.ok none, { r with source := none })
      else (.ok (some (decodeLine r.held.reverse)), { r with source := none, held := [] })
    | (.ok (b :: bytes), rest) =>
      let (ready, held) := cut r.held (b :: bytes)
      nextLine { r with source := some rest, ready, held, bytesRead := r.bytesRead + bytes.length + 1 }
termination_by r.source.elim 0 Source.size
decreasing_by
  have h : (source.read r.chunk).2.size + (b :: bytes).length ≤ source.size :=
    Source.size_read_add_length_le (by rw [_hread])
  rw [_hread] at h
  simp only [List.length_cons] at h
  simp only [_hsource, Option.elim]
  omega

end Reader

end ElmImports
