import ElmImports.Text.Utf8

/-!
# Writing to a limited sink

A sink may accept only so many bytes; it takes what fits and fails with the first byte that does not.
-/

namespace ElmImports

inductive WriteError
  /-- The sink takes no more. -/
  | full
  /-- The sink took no more while a JSON value was being written. -/
  | fullInJson
  /-- A path that is not UTF-8 has no JSON text. -/
  | pathNotText
  deriving DecidableEq

structure Written where
  received : Bytes
  failure? : Option WriteError := none

namespace Written

/-- Text written whole to a sink that accepts at most `limit` bytes, with the failure it gives otherwise. -/
def ofText (limit : Option Nat) (failure : WriteError) (t : Text) : Written :=
  let bytes := Utf8.encode t
  match limit with
  | none => ⟨bytes, none⟩
  | some n => if bytes.length ≤ n then ⟨bytes, none⟩ else ⟨bytes.take n, some failure⟩

end Written

end ElmImports
