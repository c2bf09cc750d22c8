import ElmImports.Text.Blank
import Mathlib.Data.List.Basic
import Mathlib.Data.List.TakeWhile

/-!
# Words between blanks

A keyword and a word are found where they stand: behind blanks, and ahead of a blank or of the end.
-/

namespace ElmImports.Text

def IsWord (t : Text) : Prop :=
  t ≠ [] ∧ ∀ c ∈ t, isBlank c = false

def IsBlanks (t : Text) : Prop :=
  t ≠ [] ∧ ∀ c ∈ t, isBlank c = true

instance (t : Text) : Decidable t.IsWord :=
  decidable_of_iff (t ≠ [] ∧ t.all (! isBlank ·) = true) (by simp [IsWord])

instance (t : Text) : Decidable t.IsBlanks :=
  decidable_of_iff (t ≠ [] ∧ t.all isBlank = true) (by simp [IsBlanks])

theorem isBlanks_cons {c : Char} {blanks : Text} (hc : isBlank c = true) (h : ∀ d ∈ blanks, isBlank d = true) :
    IsBlanks (c :: blanks) :=
  ⟨List.cons_ne_nil c blanks, List.forall_mem_cons.mpr ⟨hc, h⟩⟩

def EndsWord (t : Text) : Prop :=
  ∀ c ∈ t.head?, isBlank c = true

theorem endsWord_nil : EndsWord [] := by
  intro c hc
  cases hc

theorem endsWord_cons {c : Char} (hc : isBlank c = true) (t : Text) : EndsWord (c :: t) := by
  intro d hd
  obtain rfl : c = d := Option.some.inj hd
  exact hc

theorem trimStart_append {blanks : Text} (h : ∀ c ∈ blanks, isBlank c = true) (t : Text) :
    trimStart (blanks ++ t) = t.trimStart :=
  List.dropWhile_append_of_pos h

theorem trimStart_word {w : Text} (h : w.IsWord) (t : Text) : trimStart (w ++ t) = w ++ t := by
  obtain ⟨c, w, rfl⟩ := List.exists_cons_of_ne_nil h.1
  have hc := h.2 c (by simp)
  unfold trimStart
  rw [List.cons_append, List.dropWhile_cons_of_neg (by simp [hc])]

theorem takeWhile_of_endsWord {rest : Text} (h : EndsWord rest) : rest.takeWhile (! isBlank ·) = [] := by
  cases rest with
  | nil => rfl
  | cons c rest => rw [List.takeWhile_cons_of_neg (by simp [h c rfl])]

theorem firstWord?_word {w rest : Text} (h : w.IsWord) (hrest : EndsWord rest) :
    firstWord? (w ++ rest) = some w := by
  have htake : (trimStart (w ++ rest)).takeWhile (! isBlank ·) = w := by
    rw [trimStart_word h, List.takeWhile_append_of_pos fun c hc => by simp [h.2 c hc],
      takeWhile_of_endsWord hrest, List.append_nil]
  unfold firstWord?
  rw [htake]
  obtain ⟨c, w, rfl⟩ := List.exists_cons_of_ne_nil h.1
  rfl

theorem firstWord?_append {blanks : Text} (h : ∀ c ∈ blanks, isBlank c = true) (t : Text) :
    firstWord? (blanks ++ t) = t.firstWord? := by
  unfold firstWord?
  rw [trimStart_append h]

theorem afterKeyword?_append (word : Text) {c : Char} (hc : isBlank c = true) (rest : Text) :
    afterKeyword? word (word ++ c :: rest) = some rest := by
  unfold afterKeyword?
  rw [List.isPrefixOf?_eq_some_iff_append_eq.mpr rfl]
  exact if_pos hc

/-- The keyword is followed by blanks, of which it takes the first. -/
theorem afterKeyword?_blanks (word : Text) {blanks : Text} (h : blanks.IsBlanks) (t : Text) :
    afterKeyword? word (word ++ (blanks ++ t)) = some (blanks.tail ++ t) := by
  obtain ⟨c, blanks, rfl⟩ := List.exists_cons_of_ne_nil h.1
  exact afterKeyword?_append word (h.2 c (by simp)) (blanks ++ t)

theorem afterKeyword?_eq_some {word t rest : Text} :
    afterKeyword? word t = some rest ↔ ∃ c, isBlank c = true ∧ t = word ++ c :: rest := by
  constructor
  · intro h
    unfold afterKeyword? at h
    split at h
    · rename_i c more hprefix
      split at h
      · rename_i hc
        cases h
        exact ⟨c, hc, (List.isPrefixOf?_eq_some_iff_append_eq.mp hprefix).symm⟩
      · cases h
    · cases h
  · rintro ⟨c, hc, rfl⟩
    exact afterKeyword?_append word hc rest

theorem firstWord?_eq_none {t : Text} : t.firstWord? = none ↔ ∀ c ∈ t, isBlank c = true := by
  rw [← List.dropWhile_eq_nil_iff]
  change t.firstWord? = none ↔ t.trimStart = []
  unfold firstWord?
  cases h : t.trimStart with
  | nil => exact ⟨fun _ => rfl, fun _ => rfl⟩
  | cons c rest =>
    have hc := List.head?_dropWhile_not isBlank t
    unfold trimStart at h
    rw [h] at hc
    rw [List.takeWhile_cons_of_pos (by simpa using hc)]
    exact ⟨nofun, nofun⟩

theorem exists_trimStart (t : Text) : ∃ blanks, (∀ c ∈ blanks, isBlank c = true) ∧ t = blanks ++ t.trimStart :=
  ⟨t.takeWhile isBlank, fun _ => List.mem_takeWhile_imp, List.takeWhile_append_dropWhile.symm⟩

/-- The first word stands behind blanks and goes on up to a blank or the end. -/
theorem exists_of_firstWord? {t w : Text} (h : t.firstWord? = some w) :
    ∃ blanks rest, (∀ c ∈ blanks, isBlank c = true) ∧ EndsWord rest ∧ t = blanks ++ (w ++ rest) := by
  obtain ⟨blanks, hblanks, ht⟩ := t.exists_trimStart
  have hw : t.trimStart.takeWhile (! isBlank ·) = w := by
    unfold firstWord? at h
    split at h
    · cases h
    · exact Option.some.inj h
  refine ⟨blanks, t.trimStart.dropWhile (! isBlank ·), hblanks, ?_, ?_⟩
  · intro c hc
    have hhead := List.head?_dropWhile_not (! isBlank ·) t.trimStart
    rw [Option.mem_def.mp hc] at hhead
    simpa using hhead
  · rw [← hw, List.takeWhile_append_dropWhile]
    exact ht

theorem IsBlanks.tail {blanks : Text} (h : blanks.IsBlanks) : ∀ c ∈ blanks.tail, isBlank c = true :=
  fun c hc => h.2 c (List.mem_of_mem_tail hc)

end ElmImports.Text
