import Std.Data.TreeSet
import ElmImports.Text.Utf8

/-!
# Paths and their components

A path keeps the bytes it is spelled with. What it names is its list of components: empty pieces between
slashes name nothing, and a dot names nothing unless it opens a relative path. Paths are equal, and are
ordered, as their lists of components; the spelling is what is displayed.
-/

namespace ElmImports

structure Path where
  bytes : Bytes

inductive Component
  | root
  | current
  | parent
  | name (bytes : Bytes)
  deriving DecidableEq

namespace Component

def spelling : Component → Bytes
  | root => [0x2F]
  | current => [0x2E]
  | parent => [0x2E, 0x2E]
  | name bytes => bytes

/-- The component that a piece between slashes stands for inside a path. -/
def ofPiece? : Bytes → Option Component
  | [] => none
  | [0x2E] => none
  | [0x2E, 0x2E] => some parent
  | piece => some (name piece)

/-! ## Order -/

def rank : Component → Nat
  | root => 0
  | current => 1
  | parent => 2
  | name _ => 3

def nameBytes : Component → Bytes
  | name bytes => bytes
  | _ => []

/-- The root first, then the current directory, then the parent, then names by their bytes. -/
instance : Ord Component := ⟨compareLex (compareOn rank) (compareOn nameBytes)⟩

instance : Std.TransOrd Component :=
  inferInstanceAs (Std.TransCmp (compareLex (compareOn rank) (compareOn nameBytes)))

instance : Std.LawfulEqOrd Component where
  eq_of_compare {a b} h := by
    change compareLex _ _ a b = _ at h
    rw [compareLex_eq_eq] at h
    cases a <;> cases b <;> simp_all [compareOn, rank, nameBytes]

end Component

namespace Path

def slash : UInt8 := 0x2F

def dot : UInt8 := 0x2E

def ofText (t : Text) : Path :=
  ⟨Utf8.encode t⟩

def ofString (s : String) : Path :=
  ofText s.toList

def display (p : Path) : Text :=
  Utf8.decodeLossy p.bytes

def isEmpty (p : Path) : Bool :=
  p.bytes.isEmpty

def isAbsolute (p : Path) : Bool :=
  p.bytes.head? == some slash

/-- The path is relative and its first piece is a dot. -/
def isDotted (p : Path) : Bool :=
  (p.bytes.splitOn slash).head? == some [dot]

def opening (p : Path) : List Component :=
  if p.isAbsolute then [.root] else if p.isDotted then [.current] else []

def components (p : Path) : List Component :=
  p.opening ++ (p.bytes.splitOn slash).filterMap Component.ofPiece?

/-- The plainest path with the given components, a root being the first. -/
def ofComponents : List Component → Path
  | .root :: cs => ⟨slash :: [slash].intercalate (cs.map Component.spelling)⟩
  | cs => ⟨[slash].intercalate (cs.map Component.spelling)⟩

/-! ## Equality and order -/

instance : BEq Path := ⟨fun p q => p.components == q.components⟩

theorem beq_iff {p q : Path} : (p == q) = true ↔ p.components = q.components := by
  show (p.components == q.components) = true ↔ _
  exact beq_iff_eq

instance : EquivBEq Path where
  rfl := by simp [beq_iff]
  symm h := by rw [beq_iff] at *; exact h.symm
  trans h₁ h₂ := by rw [beq_iff] at *; exact h₁.trans h₂

instance : Ord Path := ⟨compareOn components⟩

instance : Std.TransOrd Path := inferInstanceAs (Std.TransCmp (compareOn components))

theorem compare_eq_iff {p q : Path} : compare p q = .eq ↔ p.components = q.components := by
  show compare p.components q.components = .eq ↔ _
  exact Std.LawfulEqCmp.compare_eq_iff_eq

end Path

/-- A set of paths, which keeps the spelling under which a path first came in. -/
abbrev PathSet := Std.TreeSet Path

end ElmImports
