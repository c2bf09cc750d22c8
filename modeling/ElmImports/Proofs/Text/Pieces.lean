import Mathlib.Data.List.TakeWhile

/-!
# Lists cut at a separator

The pieces between separators hold no separator and, put in a row with one between any two, give the list
back. So an item of the list is a separator or an item of a piece.
-/

namespace ElmImports.Pieces

section
variable {α : Type} [BEq α] [LawfulBEq α] {sep x : α} {l piece : List α}

theorem sep_not_mem (h : piece ∈ l.splitOn sep) : sep ∉ piece := by
  induction l generalizing piece with
  | nil => rw [List.splitOn_nil, List.mem_singleton] at h; simp [h]
  | cons b l ih =>
    rw [List.splitOn_cons_eq_if_modifyHead] at h
    by_cases hb : b = sep
    · rw [if_pos (by simpa using hb), List.mem_cons] at h
      rcases h with rfl | h
      · simp
      · exact ih h
    · rw [if_neg (by simpa using hb)] at h
      obtain ⟨first, rest, he⟩ := List.exists_cons_of_ne_nil (List.splitOn_ne_nil sep l)
      rw [he, List.modifyHead_cons, List.mem_cons] at h
      rcases h with rfl | h
      · have : sep ∉ first := ih (by rw [he]; simp)
        simp [Ne.symm hb, this]
      · exact ih (by rw [he]; simp [h])

theorem mem_of_mem_splitOn (h : piece ∈ l.splitOn sep) (hx : x ∈ piece) : x ∈ l := by
  induction l generalizing piece with
  | nil =>
    rw [List.splitOn_nil, List.mem_singleton] at h
    exact h ▸ hx
  | cons b l ih =>
    rw [List.splitOn_cons_eq_if_modifyHead] at h
    obtain ⟨first, rest, he⟩ := List.exists_cons_of_ne_nil (List.splitOn_ne_nil sep l)
    have hfirst : first ∈ l.splitOn sep := he ▸ List.mem_cons_self
    by_cases hb : b = sep
    · rw [if_pos (by simpa using hb), List.mem_cons] at h
      rcases h with rfl | h
      · cases hx
      · exact List.mem_cons_of_mem _ (ih h hx)
    · rw [if_neg (by simpa using hb), he, List.modifyHead_cons, List.mem_cons] at h
      rcases h with rfl | h
      · exact List.mem_cons.mpr ((List.mem_cons.mp hx).imp_right (ih hfirst))
      · exact List.mem_cons_of_mem _ (ih (he ▸ List.mem_cons_of_mem _ h) hx)

/-- A list is cut in one way at the first of its separators. -/
theorem append_sep_inj {m rest rest' : List α} (h : sep ∉ l) (h' : sep ∉ m)
    (heq : l ++ sep :: rest = m ++ sep :: rest') : l = m ∧ rest = rest' := by
  have hsplit := congrArg (List.splitOn sep) heq
  rw [List.splitOn_append_cons_self_of_not_mem h, List.splitOn_append_cons_self_of_not_mem h'] at hsplit
  obtain rfl := (List.cons.inj hsplit).1
  exact ⟨rfl, (List.cons.inj (List.append_cancel_left heq)).2⟩

end

section
variable {α : Type} {sep x : α}

theorem intercalate_append {k m : List (List α)} (hk : k ≠ []) (hm : m ≠ []) :
    [sep].intercalate (k ++ m) = [sep].intercalate k ++ sep :: [sep].intercalate m := by
  induction k with
  | nil => exact absurd rfl hk
  | cons piece k ih =>
    by_cases hne : k = []
    · subst hne
      rw [List.singleton_append, List.intercalate_cons_of_ne_nil hm, List.intercalate_singleton,
        List.append_assoc, List.singleton_append]
    · rw [List.cons_append, List.intercalate_cons_of_ne_nil (by simp [hne]), ih hne,
        List.intercalate_cons_of_ne_nil hne, List.append_assoc, List.append_assoc, List.append_assoc]

theorem mem_intercalate {pieces : List (List α)} (h : x ∈ [sep].intercalate pieces) :
    x = sep ∨ ∃ piece ∈ pieces, x ∈ piece := by
  induction pieces with
  | nil => simp at h
  | cons piece pieces ih =>
    by_cases hne : pieces = []
    · subst hne
      rw [List.intercalate_singleton] at h
      exact Or.inr ⟨piece, by simp, h⟩
    · rw [List.intercalate_cons_of_ne_nil hne, List.mem_append, List.mem_append] at h
      rcases h with (h | h) | h
      · exact Or.inr ⟨piece, by simp, h⟩
      · exact Or.inl (List.mem_singleton.mp h)
      · rcases ih h with h | ⟨second, hs, hx⟩
        · exact Or.inl h
        · exact Or.inr ⟨second, List.mem_cons_of_mem _ hs, hx⟩

end

/-! ## Lines -/

section
variable {α : Type} [BEq α] [LawfulBEq α] [DecidableEq (List α)] {feed : α} {l : List α}

def lines (feed : α) (l : List α) : List (List α) :=
  let pieces := l.splitOn feed
  if pieces.getLast? = some [] then pieces.dropLast else pieces

theorem lines_of_not_mem (h : feed ∉ l) (hne : l ≠ []) : lines feed l = [l] := by
  unfold lines
  rw [List.splitOn_eq_singleton h]
  simp [hne]

theorem lines_append_feed (h : feed ∉ l) (rest : List α) : lines feed (l ++ feed :: rest) = l :: lines feed rest := by
  unfold lines
  rw [List.splitOn_append_cons_self_of_not_mem h]
  obtain ⟨piece, pieces, hp⟩ := List.exists_cons_of_ne_nil (List.splitOn_ne_nil feed rest)
  rw [hp]
  dsimp only
  rw [List.getLast?_cons_cons]
  by_cases hl : (piece :: pieces).getLast? = some []
  · simp only [if_pos hl, List.dropLast_cons_cons]
  · simp only [if_neg hl]

end

/-! ## Pieces that stand for nothing -/

section
variable {α β : Type} {f : α → Option β}

theorem filterMap_dropWhile_isNone (l : List α) :
    (l.dropWhile (f · |>.isNone)).filterMap f = l.filterMap f := by
  induction l with
  | nil => rfl
  | cons a l ih =>
    cases ha : f a with
    | none => rw [List.dropWhile_cons_of_pos (by simp [ha]), ih, List.filterMap_cons_none ha]
    | some b => rw [List.dropWhile_cons_of_neg (by simp [ha])]

theorem filterMap_ne_nil_of_dropWhile {l : List α} (h : l.dropWhile (f · |>.isNone) ≠ []) : l.filterMap f ≠ [] := by
  intro he
  rw [List.filterMap_eq_nil_iff] at he
  apply h
  rw [List.dropWhile_eq_nil_iff]
  intro a ha
  rw [he a ha]
  rfl

end

end ElmImports.Pieces
