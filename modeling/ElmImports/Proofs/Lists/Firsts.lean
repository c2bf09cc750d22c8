/-!
# First occurrences

A list without its repetitions keeps the first of all items that are equal. What is appended to the list is
appended to its first occurrences unless it occurs there, and no two of these are equal. Items count alike if
they are equal, however they are spelled.
-/

namespace ElmImports

variable {α : Type}

theorem length_filter_lt_succ (p : α → Bool) (l : List α) : (l.filter p).length < l.length + 1 :=
  Nat.lt_succ_of_le (List.length_filter_le p l)

variable [BEq α]

theorem eraseDups_concat (a : α) : ∀ l : List α,
    (l ++ [a]).eraseDups = if l.eraseDups.contains a then l.eraseDups else l.eraseDups ++ [a]
  | [] => by simp [List.eraseDups_cons]
  | b :: l => by
    have := length_filter_lt_succ (! · == b) l
    have ih := eraseDups_concat a (l.filter (! · == b))
    rw [List.cons_append, List.eraseDups_cons, List.eraseDups_cons, List.filter_append, List.contains_cons]
    cases hab : a == b with
    | true => simp [hab]
    | false =>
      have hlast : [a].filter (! · == b) = [a] := by simp [hab]
      rw [hlast, ih, Bool.false_or]
      split
      · rfl
      · rfl
termination_by l => l.length

theorem eraseDups_filter {p : α → Bool} (hp : ∀ a b, (a == b) = true → p a = p b) : ∀ l : List α,
    (l.filter p).eraseDups = l.eraseDups.filter p
  | [] => by simp
  | b :: l => by
    have := length_filter_lt_succ (! · == b) l
    have ih := eraseDups_filter hp (l.filter (! · == b))
    rw [List.filter_filter] at ih
    rw [List.eraseDups_cons]
    cases hb : p b with
    | true =>
      rw [List.filter_cons_of_pos hb, List.filter_cons_of_pos hb, List.eraseDups_cons, ← ih, List.filter_filter]
      simp only [Bool.and_comm]
    | false =>
      rw [List.filter_cons_of_neg (by simp [hb]), List.filter_cons_of_neg (by simp [hb]), ← ih]
      congr 1
      refine List.filter_congr fun a _ => ?_
      -- what equals `b` is left out by `p` already
      cases hab : a == b with
      | true => simp [hp a b hab, hb]
      | false => simp
termination_by l => l.length

theorem pairwise_eraseDups [EquivBEq α] : ∀ l : List α, l.eraseDups.Pairwise fun a b => (a == b) = false
  | [] => by simp
  | a :: l => by
    have := length_filter_lt_succ (! · == a) l
    have hfilter := eraseDups_filter (p := (! · == a)) (fun b c hbc => by rw [BEq.congr_left hbc]) l
    rw [List.eraseDups_cons]
    refine List.pairwise_cons.mpr ⟨?_, pairwise_eraseDups (l.filter (! · == a))⟩
    intro b hb
    rw [hfilter] at hb
    rw [BEq.comm]
    simpa using (List.mem_filter.mp hb).2
termination_by l => l.length

theorem eraseDups_sublist : ∀ l : List α, l.eraseDups.Sublist l
  | [] => by simp
  | a :: l => by
    have := length_filter_lt_succ (! · == a) l
    rw [List.eraseDups_cons]
    exact .cons_cons a ((eraseDups_sublist _).trans List.filter_sublist)
termination_by l => l.length

/-- What equals `b` can be left out in looking for what does not equal it. -/
theorem contains_filter_bne [EquivBEq α] {a b : α} (hab : (a == b) = false) (l : List α) :
    (l.filter (! · == b)).contains a = l.contains a := by
  rw [Bool.eq_iff_iff, List.contains_iff_exists_mem_beq, List.contains_iff_exists_mem_beq]
  refine exists_congr fun c => and_congr_left fun hac => ?_
  rw [List.mem_filter, ← BEq.congr_left hac, hab]
  exact and_iff_left rfl

theorem contains_eraseDups [EquivBEq α] (a : α) : ∀ l : List α, l.eraseDups.contains a = l.contains a
  | [] => by simp
  | b :: l => by
    have := length_filter_lt_succ (! · == b) l
    rw [List.eraseDups_cons, List.contains_cons, List.contains_cons, contains_eraseDups a (l.filter (! · == b))]
    cases hab : a == b with
    | true => rfl
    | false => rw [contains_filter_bne hab]
termination_by l => l.length

theorem eraseDups_of_pairwise : ∀ {l : List α}, (l.Pairwise fun a b => (b == a) = false) → l.eraseDups = l
  | [], _ => by simp
  | a :: l, h => by
    obtain ⟨ha, hl⟩ := List.pairwise_cons.mp h
    have hfilter : l.filter (! · == a) = l := List.filter_eq_self.mpr fun b hb => by rw [ha b hb]; rfl
    rw [List.eraseDups_cons, hfilter, eraseDups_of_pairwise hl]

theorem eraseDups_append_of_contains [EquivBEq α] : ∀ {l l' : List α}, (∀ b ∈ l', l.contains b = true) →
    (l ++ l').eraseDups = l.eraseDups
  | l, [], _ => by rw [List.append_nil]
  | l, b :: l', h => by
    obtain ⟨hb, hl'⟩ := List.forall_mem_cons.mp h
    have hmore : ∀ c ∈ l', (l ++ [b]).contains c = true := fun c hc => by
      rw [List.contains_append, hl' c hc, Bool.true_or]
    rw [← List.singleton_append, ← List.append_assoc, eraseDups_append_of_contains hmore, eraseDups_concat,
      contains_eraseDups, hb, if_pos rfl]

theorem eraseDups_eraseDups [EquivBEq α] (l : List α) : l.eraseDups.eraseDups = l.eraseDups :=
  eraseDups_of_pairwise ((pairwise_eraseDups l).imp fun {a b} hab => by rwa [BEq.comm])

theorem eraseDups_append_eraseDups [EquivBEq α] : ∀ l l' : List α,
    (l.eraseDups ++ l').eraseDups = (l ++ l').eraseDups
  | l, [] => by rw [List.append_nil, List.append_nil, eraseDups_eraseDups]
  | l, b :: l' => by
    have hconcat : (l.eraseDups ++ [b]).eraseDups = (l ++ [b]).eraseDups := by
      rw [eraseDups_concat, eraseDups_concat, eraseDups_eraseDups]
    have ih := eraseDups_append_eraseDups (l.eraseDups ++ [b]) l'
    rw [hconcat, eraseDups_append_eraseDups (l ++ [b]) l', List.append_assoc, List.append_assoc] at ih
    exact ih.symm

/-! ## Counting first occurrences -/

theorem count_filter_bne [EquivBEq α] {a b : α} (hab : (a == b) = false) (l : List α) :
    (l.filter (! · == b)).count a = l.count a := by
  rw [List.count, List.countP_filter]
  refine List.countP_congr fun c _ => ?_
  rw [Bool.and_eq_true]
  refine and_iff_left_of_imp fun hca => ?_
  rw [BEq.congr_left hca, hab]
  rfl

theorem count_eraseDups [EquivBEq α] (a : α) : ∀ l : List α, l.eraseDups.count a = if l.contains a then 1 else 0
  | [] => by simp
  | b :: l => by
    have := length_filter_lt_succ (! · == b) l
    rw [List.eraseDups_cons, List.count_cons, count_eraseDups a (l.filter (! · == b)), List.contains_cons,
      BEq.comm (a := b)]
    cases hab : a == b with
    | true =>
      -- nothing behind `b` equals it, so nothing there equals `a`
      have hrest : (l.filter (! · == b)).contains a = false := by
        rw [Bool.eq_false_iff, ne_eq, List.contains_iff_exists_mem_beq]
        rintro ⟨c, hc, hac⟩
        have hcb := (List.mem_filter.mp hc).2
        rw [← BEq.congr_left hac, hab] at hcb
        cases hcb
      rw [hrest]
      rfl
    | false => rw [contains_filter_bne hab, Bool.false_or, if_neg Bool.false_ne_true, Nat.add_zero]
termination_by l => l.length

section
variable [EquivBEq α] {f : α → α} (hf : ∀ a, (f a == a) = true)
include hf

/-- The first occurrences of other spellings are other spellings of the first occurrences. -/
theorem eraseDups_map : ∀ l : List α, (l.map f).eraseDups = l.eraseDups.map f
  | [] => rfl
  | a :: l => by
    have := length_filter_lt_succ (! · == a) l
    have hfilter : (l.map f).filter (! · == f a) = (l.filter (! · == a)).map f := by
      rw [List.filter_map]
      congr 1
      refine List.filter_congr fun b _ => ?_
      rw [Function.comp, BEq.congr_left (hf b), BEq.congr_right (hf a)]
    rw [List.map_cons, List.eraseDups_cons, hfilter, eraseDups_map, List.eraseDups_cons, List.map_cons]
termination_by l => l.length

theorem count_map_beq (l : List α) (a : α) : (l.map f).count (f a) = l.count a := by
  rw [List.count, List.countP_map]
  refine List.countP_congr fun b _ => ?_
  rw [Function.comp, BEq.congr_left (hf b), BEq.congr_right (hf a)]

end

end ElmImports
