import ElmImports.Proofs.Path.Normal

/-!
# Joined paths

What a joined path names is what its two parts name, one after the other: the slash between them, one that
stands there already and a dot in front of the second part add nothing. Its steps are therefore those of
the first part, with the second part followed from there.
-/

namespace ElmImports.Path

def named (bytes : Bytes) : List Component :=
  (bytes.splitOn slash).filterMap Component.ofPiece?

theorem components_eq (p : Path) : p.components = p.opening ++ named p.bytes :=
  rfl

theorem isStep_of_mem_named {bytes : Bytes} {c : Component} (h : c ∈ named bytes) : c.IsStep :=
  isStep_of_mem_pieces h

/-! ## Slashes -/

@[simp] theorem named_append_slash (a b : Bytes) : named (a ++ slash :: b) = named a ++ named b := by
  unfold named
  rw [List.splitOn_append_cons_self, List.filterMap_append]

@[simp] theorem named_slash_cons (b : Bytes) : named (slash :: b) = named b :=
  named_append_slash [] b

theorem named_of_slash_not_mem {bytes : Bytes} (h : slash ∉ bytes) :
    named bytes = (Component.ofPiece? bytes).toList := by
  unfold named
  rw [List.splitOn_eq_singleton h, List.filterMap_cons]
  cases Component.ofPiece? bytes <;> rfl

theorem opening_slash_cons (b : Bytes) : opening ⟨slash :: b⟩ = [.root] :=
  rfl

theorem opening_append_slash {a : Bytes} (ha : a ≠ []) (b : Bytes) :
    opening ⟨a ++ slash :: b⟩ = opening ⟨a⟩ := by
  obtain ⟨x, xs, rfl⟩ := List.exists_cons_of_ne_nil ha
  have habs : isAbsolute ⟨x :: xs ++ slash :: b⟩ = isAbsolute ⟨x :: xs⟩ := rfl
  have hdot : isDotted ⟨x :: xs ++ slash :: b⟩ = isDotted ⟨x :: xs⟩ := by
    unfold isDotted
    obtain ⟨piece, pieces, he⟩ := List.exists_cons_of_ne_nil (List.splitOn_ne_nil slash (x :: xs))
    rw [List.splitOn_append_cons_self, he]
    rfl
  unfold opening
  rw [habs, hdot]

theorem components_append_slash {a : Bytes} (ha : a ≠ []) (b : Bytes) :
    components ⟨a ++ slash :: b⟩ = components ⟨a⟩ ++ named b := by
  rw [components_eq, components_eq, opening_append_slash ha, named_append_slash, List.append_assoc]

theorem components_slash_cons (b : Bytes) : components ⟨slash :: b⟩ = .root :: named b := by
  rw [components_eq, opening_slash_cons, named_slash_cons, List.singleton_append]

/-! ## Joining -/

variable {p q : Path}

theorem join_of_isAbsolute (hq : q.isAbsolute = true) (p : Path) : p.join q = q := by
  unfold join
  rw [if_pos hq]

theorem empty_join (q : Path) : join ⟨[]⟩ q = q := by
  unfold join
  split <;> rfl

theorem components_join_of_ne_nil (hp : p.bytes ≠ []) (hq : q.isAbsolute = false) :
    (p.join q).components = p.components ++ named q.bytes := by
  obtain ⟨bytes⟩ := p
  unfold join
  rw [if_neg (by simp [hq])]
  split
  · rename_i hlast
    -- the slash is there already
    obtain ⟨a, x, rfl⟩ := List.eq_nil_or_concat bytes |>.resolve_left hp
    obtain rfl : x = slash := by simpa using hlast
    simp only [List.concat_eq_append, List.append_assoc, List.singleton_append]
    by_cases ha : a = []
    · subst ha
      exact components_slash_cons q.bytes
    · rw [components_append_slash ha, components_append_slash ha, List.append_assoc]
      rfl
  · exact components_append_slash hp q.bytes

theorem isAbsolute_of_opening_eq_nil (hq : q.opening = []) : q.isAbsolute = false := by
  unfold opening at hq
  split at hq
  · cases hq
  · simp_all

theorem components_join (hq : q.opening = []) (p : Path) :
    (p.join q).components = p.components ++ q.components := by
  by_cases hp : p.bytes = []
  · obtain ⟨bytes⟩ := p
    subst hp
    rw [empty_join]
    rfl
  · rw [components_join_of_ne_nil hp (isAbsolute_of_opening_eq_nil hq), components_eq q, hq, List.nil_append]

/-! ## Steps -/

theorem opening_of_relative (hq : q.isAbsolute = false) : q.opening = [] ∨ q.opening = [.current] := by
  unfold opening
  rw [if_neg (by simp [hq])]
  split
  · exact Or.inr rfl
  · exact Or.inl rfl

theorem foldl_follow_components (hq : q.isAbsolute = false) (kept : List Component) :
    q.components.foldl follow kept = (named q.bytes).foldl follow kept := by
  rw [components_eq]
  rcases opening_of_relative hq with ho | ho <;> rw [ho] <;> rfl

theorem steps_join (hq : q.isAbsolute = false) (p : Path) :
    (p.join q).steps = q.components.foldl follow p.steps := by
  by_cases hp : p.bytes = []
  · obtain ⟨bytes⟩ := p
    subst hp
    rw [empty_join]
    rfl
  · rw [foldl_follow_components hq]
    unfold steps
    rw [components_join_of_ne_nil hp hq, List.foldl_append]

end ElmImports.Path
