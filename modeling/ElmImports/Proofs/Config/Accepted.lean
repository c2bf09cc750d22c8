import ElmImports.Config.Basic

/-!
# Accepted configurations

A configuration is accepted when every layer could be read and nothing is wrong with the outcome. No layer
leaves a dot in front of an extension, so that an accepted configuration has extensions that are not empty
and open with no dot.
-/

namespace ElmImports

def Undotted (t : Text) : Prop :=
  t.head? ≠ some '.'

namespace Config
variable {disk : Disk} {env : Environment} {dir : Path} {user? : Option Path} {cli : Layer} {c c' : Config}

theorem bind_eq_ok {ε α β : Type} {x : Except ε α} {f : α → Except ε β} {b : β} (h : x >>= f = .ok b) :
    ∃ a, x = .ok a ∧ f a = .ok b := by
  cases x with
  | error e => cases h
  | ok a => exact ⟨a, rfl, h⟩

/-- What an accepted configuration is made of. -/
theorem of_resolveFrom (h : resolveFrom disk env dir user? cli = .ok c) :
    ∃ c₁ c₂ layer, builtIn.applyFile disk .user (user?.filter disk.isFile) = .ok c₁ ∧
      c₁.applyFile disk .project (disk.nearest? projectConfigName dir) = .ok c₂ ∧
      environmentLayer env = .ok layer ∧ c.fault? = none ∧
      c = (c₂.apply layer fun s => .environment s.envName).apply cli fun s => .commandLine s.flag := by
  unfold resolveFrom at h
  obtain ⟨c₁, h₁, h⟩ := bind_eq_ok h
  obtain ⟨c₂, h₂, h⟩ := bind_eq_ok h
  obtain ⟨layer, hlayer, h⟩ := bind_eq_ok h
  dsimp only at h
  split at h
  · cases h
  · rename_i hfault
    cases h
    exact ⟨c₁, c₂, layer, h₁, h₂, hlayer, hfault, rfl⟩

/-! ## Dots in front of extensions -/

theorem undotted_dropDots (t : Text) : Undotted (dropDots t) := by
  have := List.head?_dropWhile_not (· == '.') t
  unfold Undotted dropDots
  intro h
  rw [h] at this
  cases this

theorem undotted_getD {given? : Option Text} {t : Text} (h : Undotted t) :
    Undotted ((given?.map dropDots).getD t) := by
  cases given? with
  | none => exact h
  | some given => exact undotted_dropDots given

structure UndottedExtensions (layout : Layout) : Prop where
  source : Undotted layout.sourceExtension
  native : Undotted layout.nativeExtension

theorem undottedExtensions_builtIn : UndottedExtensions builtIn.layout :=
  ⟨by unfold Undotted; decide, by unfold Undotted; decide⟩

theorem UndottedExtensions.apply (h : UndottedExtensions c.layout) (layer : Layer) (origin : Setting → Origin) :
    UndottedExtensions (c.apply layer origin).layout :=
  ⟨undotted_getD h.source, undotted_getD h.native⟩

theorem UndottedExtensions.applyFile (h : UndottedExtensions c.layout) {kind : FileKind} {file? : Option Path}
    (hfile : c.applyFile disk kind file? = .ok c') : UndottedExtensions c'.layout := by
  unfold Config.applyFile at hfile
  cases file? with
  | none => cases hfile; exact h
  | some p =>
    obtain ⟨layer, -, hfile⟩ := bind_eq_ok hfile
    cases hfile
    -- the layout is the same whatever the origins are
    exact h.apply layer fun _ => .builtIn

theorem undottedExtensions_of_resolveFrom (h : resolveFrom disk env dir user? cli = .ok c) :
    UndottedExtensions c.layout := by
  obtain ⟨c₁, c₂, layer, h₁, h₂, -, -, rfl⟩ := of_resolveFrom h
  exact (((undottedExtensions_builtIn.applyFile h₁).applyFile h₂).apply layer _).apply cli _

/-! ## Empty extensions -/

theorem fault?_eq_none : c.fault? = none ↔ c.chunk ≠ 0 ∧ c.layout.sourceExtension ≠ [] ∧
    c.layout.nativeExtension ≠ [] ∧ c.layout.nativePrefix ≠ [] ∧ c.manifest ≠ [] := by
  unfold fault?
  repeat' split
  all_goals simp_all

theorem extensions_ne_nil_of_resolveFrom (h : resolveFrom disk env dir user? cli = .ok c) :
    c.layout.sourceExtension ≠ [] ∧ c.layout.nativeExtension ≠ [] := by
  obtain ⟨_, _, _, -, -, -, hfault, -⟩ := of_resolveFrom h
  obtain ⟨-, hsource, hnative, -⟩ := fault?_eq_none.mp hfault
  exact ⟨hsource, hnative⟩

end Config

end ElmImports
