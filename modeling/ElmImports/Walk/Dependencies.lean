import ElmImports.Path.Normal

/-!
# Ordered sets of dependencies

Dependencies are kept in the order in which they were first found, and beside it in a set that answers
whether one is there. Paths are normalized on their way in; those to leave out are compared as they are
given.
-/

namespace ElmImports

structure Dependencies where
  order : Array Path := #[]
  members : PathSet := ∅

namespace Dependencies

def contains (d : Dependencies) (p : Path) : Bool :=
  d.members.contains p.normalize

/-- `none` if the path is there already. -/
def insert? (d : Dependencies) (p : Path) : Option Dependencies :=
  let p := p.normalize
  if d.members.contains p then none else some ⟨d.order.push p, d.members.insert p⟩

def insert (d : Dependencies) (p : Path) : Dependencies :=
  (d.insert? p).getD d

def insertAll (d : Dependencies) (ps : List Path) : Dependencies :=
  ps.foldl insert d

def ofList (ps : List Path) : Dependencies :=
  insertAll {} ps

def exclude (d : Dependencies) (excluded : PathSet) : Dependencies where
  order := d.order.filter (! excluded.contains ·)
  members := d.members.filter (! excluded.contains ·)

def toList (d : Dependencies) : List Path :=
  d.order.toList

def size (d : Dependencies) : Nat :=
  d.order.size

/-- The same members in the same order. -/
instance : BEq Dependencies := ⟨fun d e => d.toList == e.toList⟩

/-! ## What the operations list -/

theorem toList_insert? {d e : Dependencies} {p : Path} (h : d.insert? p = some e) :
    e.toList = d.toList ++ [p.normalize] := by
  unfold insert? at h
  dsimp only at h
  split at h
  · cases h
  · cases h; simp [toList]

theorem insert?_eq_none_iff {d : Dependencies} {p : Path} : d.insert? p = none ↔ d.contains p = true := by
  unfold insert? contains
  dsimp only
  split <;> simp_all

theorem toList_exclude (d : Dependencies) (excluded : PathSet) :
    (d.exclude excluded).toList = d.toList.filter (! excluded.contains ·) := by
  simp [exclude, toList]

end Dependencies

end ElmImports
