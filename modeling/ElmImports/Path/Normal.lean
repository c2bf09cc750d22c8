import ElmImports.Path.Edit

/-!
# Normal paths

A path is normalized without looking at any file: dots are dropped and a parent step cancels the name
before it. Parent steps that open a relative path stay, those at the root are dropped, and a path of which
nothing is left is a dot.
-/

namespace ElmImports.Path

/-- The steps kept so far, the last first, after one more component. -/
def follow (kept : List Component) : Component → List Component
  | .current => kept
  | .parent => match kept with
    | .name _ :: rest => rest
    | .root :: _ => kept
    | _ => .parent :: kept
  | c => c :: kept

def normalize (p : Path) : Path :=
  match (p.components.foldl follow []).reverse with
  | [] => ⟨[dot]⟩
  | cs => ofComponents cs

def directory (p : Path) : Path :=
  match p.parent? with
  | some dir => if dir.isEmpty then ⟨[dot]⟩ else dir
  | none => ⟨[dot]⟩

end ElmImports.Path
