import ElmImports.Proofs.Text.Returns
import ElmImports.SourceRoots.Manifest

/-!
# JSON with either line ends

A string has no line end in it, and between tokens a carriage return counts as little as a line feed. So a text is
cut into the same tokens, or refused, whether its lines end in one character or in two.
-/

namespace ElmImports

namespace Text

theorem withReturns_cons {c : Char} (h : c ≠ '\n') (t : Text) : withReturns (c :: t) = c :: t.withReturns :=
  insertReturns_cons h t

theorem withReturns_feed_cons (t : Text) : withReturns ('\n' :: t) = '\r' :: '\n' :: t.withReturns :=
  insertReturns_feed_cons t

theorem withReturns_append {used : Text} (h : '\n' ∉ used) (t : Text) :
    withReturns (used ++ t) = used ++ t.withReturns := by
  unfold Text.withReturns
  rw [insertReturns_append, insertReturns_of_not_mem h]

end Text

namespace Json

open Text

/-! ## Strings -/

theorem hexDigit?_of_hexValue? {digits : Text} {n : Nat} (h : hexValue? digits = some n) :
    ∀ c ∈ digits, (hexDigit? c).isSome := by
  unfold hexValue? at h
  generalize 0 = start at h
  induction digits generalizing start with
  | nil => exact List.forall_mem_nil _
  | cons d digits ih =>
    rw [List.foldlM_cons] at h
    cases hd : hexDigit? d with
    | none =>
      rw [hd] at h
      cases h
    | some v =>
      rw [hd] at h
      exact List.forall_mem_cons.mpr ⟨by rw [hd]; rfl, ih _ h⟩

theorem isSome_escaped? {c d : Char} (h : escaped? c = some d) : c ≠ '\n' ∧ c ≠ '\r' ∧ c ≠ 'u' := by
  refine ⟨?_, ?_, ?_⟩ <;> rintro rfl <;> cases h

/-- A string is read up to its closing quote, whatever follows, and has no line end ahead of it. -/
theorem stringPieces?_eq_some {t rest : Text} {pieces : List StringPiece} (h : stringPieces? t = some (pieces, rest)) :
    ∃ used, t = used ++ rest ∧ '\n' ∉ used ∧ '\r' ∉ used ∧
      ∀ more, stringPieces? (used ++ more) = some (pieces, more) := by
  fun_induction stringPieces? t generalizing pieces rest with
  | case1 => cases h
  | case2 rest' =>
    cases h
    exact ⟨['"'], rfl, by decide, by decide, fun _ => rfl⟩
  | case3 a b c d tail n ps r hps hn ih =>
    cases h
    obtain ⟨used, rfl, hfeed, hret, hmore⟩ := ih hps
    have hhex := hexDigit?_of_hexValue? hn
    have hnone {e : Char} (he : hexDigit? e = none) : e ∉ [a, b, c, d] := fun hmem => by
      have := hhex e hmem
      rw [he] at this
      cases this
    have hdigits {e : Char} (he : hexDigit? e = none) (hbackslash : e ≠ '\\') (hu : e ≠ 'u') (hused : e ∉ used) :
        e ∉ ['\\', 'u'] ++ [a, b, c, d] ++ used := by
      simp only [List.mem_append, not_or]
      exact ⟨⟨by simp [hbackslash, hu], hnone he⟩, hused⟩
    refine ⟨['\\', 'u'] ++ [a, b, c, d] ++ used, rfl, ?_, ?_, fun more => ?_⟩
    · exact hdigits rfl (by decide) (by decide) hfeed
    · exact hdigits rfl (by decide) (by decide) hret
    · simp only [List.cons_append, List.nil_append, stringPieces?, hn, hmore]
  | case4 => cases h
  | case5 c tail hu c' ps r hps hc ih =>
    cases h
    obtain ⟨used, rfl, hfeed, hret, hmore⟩ := ih hps
    obtain ⟨hc1, hc2, hc3⟩ := isSome_escaped? hc
    refine ⟨'\\' :: c :: used, rfl, ?_, ?_, fun more => ?_⟩
    · simp [hfeed, Ne.symm hc1]
    · simp [hret, Ne.symm hc2]
    · rw [List.cons_append, List.cons_append, stringPieces?, hmore, hc]
      exact fun a b c d rest he => absurd he hc3
  | case6 => cases h
  | case7 => cases h
  | case8 c tail hquote hu hescape hc ih =>
    obtain ⟨⟨ps, r⟩, hps, hp⟩ := Option.map_eq_some_iff.1 h
    cases hp
    obtain ⟨used, rfl, hfeed, hret, hmore⟩ := ih hps
    obtain ⟨hlow, hbackslash⟩ := not_or.mp hc
    refine ⟨c :: used, rfl, ?_, ?_, fun more => ?_⟩
    · refine List.not_mem_cons_of_ne_of_not_mem (fun he => hlow ?_) hfeed
      rw [← he]
      decide
    · refine List.not_mem_cons_of_ne_of_not_mem (fun he => hlow ?_) hret
      rw [← he]
      decide
    · rw [List.cons_append, stringPieces?, if_neg hc, hmore]
      · rfl
      all_goals intros; simp_all

theorem stringPieces?_withReturns (t : Text) : stringPieces? t.withReturns =
    (stringPieces? t).map fun (pieces, rest) => (pieces, rest.withReturns) := by
  cases h : stringPieces? t with
  | some result =>
    obtain ⟨pieces, rest⟩ := result
    obtain ⟨used, rfl, hfeed, -, hmore⟩ := stringPieces?_eq_some h
    rw [withReturns_append hfeed, hmore]
    rfl
  | none =>
    cases h' : stringPieces? t.withReturns with
    | none => rfl
    | some result =>
      obtain ⟨pieces, rest⟩ := result
      obtain ⟨used, he, -, hret, hmore⟩ := stringPieces?_eq_some h'
      obtain ⟨rest', rfl⟩ := eq_append_of_insertReturns hret he
      rw [hmore] at h
      cases h

/-! ## Numbers and words -/

theorem dropWhile_isDigit_withReturns (t : Text) :
    t.withReturns.dropWhile Char.isDigit = withReturns (t.dropWhile Char.isDigit) := by
  induction t with
  | nil => rfl
  | cons c t ih =>
    by_cases hfeed : c = '\n'
    · subst hfeed
      exact withReturns_feed_cons t ▸ (withReturns_feed_cons t).symm
    · rw [withReturns_cons hfeed, List.dropWhile_cons, List.dropWhile_cons]
      split
      · exact ih
      · exact (withReturns_cons hfeed t).symm

theorem afterDigits?_withReturns (t : Text) : afterDigits? t.withReturns = (afterDigits? t).map withReturns := by
  cases t with
  | nil => rfl
  | cons c t =>
    by_cases hfeed : c = '\n'
    · subst hfeed
      rw [withReturns_feed_cons]
      rfl
    · rw [withReturns_cons hfeed]
      unfold afterDigits?
      dsimp only
      split
      · rw [dropWhile_isDigit_withReturns]
        rfl
      · rfl

/-- The first character decides what is read, and a carriage return as little starts it as a line feed. -/
theorem afterInteger?_withReturns (t : Text) : afterInteger? t.withReturns = (afterInteger? t).map withReturns := by
  cases t with
  | nil => rfl
  | cons c t =>
    by_cases hfeed : c = '\n'
    · subst hfeed
      rw [withReturns_feed_cons]
      rfl
    · by_cases hzero : c = '0'
      · subst hzero
        rw [withReturns_cons hfeed]
        rfl
      · have hdigits (rest : Text) : afterInteger? (c :: rest) = afterDigits? (c :: rest) := by
          rw [afterInteger?]
          exact fun _ he => hzero (List.cons.inj he).1
        rw [hdigits, ← afterDigits?_withReturns, withReturns_cons hfeed, hdigits]

theorem afterFraction?_withReturns (t : Text) : afterFraction? t.withReturns = (afterFraction? t).map withReturns := by
  cases t with
  | nil => rfl
  | cons c t =>
    by_cases hfeed : c = '\n'
    · subst hfeed
      rw [withReturns_feed_cons]
      exact congrArg some (withReturns_feed_cons t).symm
    · rw [withReturns_cons hfeed]
      by_cases hpoint : c = '.'
      · subst hpoint
        exact afterDigits?_withReturns t
      · have hnone (rest : Text) : afterFraction? (c :: rest) = some (c :: rest) := by
          rw [afterFraction?]
          exact fun _ he => hpoint (List.cons.inj he).1
        rw [hnone, hnone, Option.map_some, withReturns_cons hfeed]

theorem afterExponent?_withReturns (t : Text) : afterExponent? t.withReturns = (afterExponent? t).map withReturns := by
  cases t with
  | nil => rfl
  | cons c t =>
    by_cases hfeed : c = '\n'
    · subst hfeed
      rw [withReturns_feed_cons]
      exact congrArg some (withReturns_feed_cons t).symm
    · rw [withReturns_cons hfeed]
      unfold afterExponent?
      dsimp only
      split
      · cases t with
        | nil => rfl
        | cons sign digits =>
          by_cases hsign : sign = '\n'
          · subst hsign
            rw [withReturns_feed_cons]
            rfl
          · rw [withReturns_cons hsign]
            dsimp only
            split
            · exact afterDigits?_withReturns digits
            · rw [← afterDigits?_withReturns, withReturns_cons hsign]
      · exact congrArg some (withReturns_cons hfeed t).symm

theorem afterNumber?_withReturns (t : Text) : afterNumber? t.withReturns = (afterNumber? t).map withReturns := by
  simp only [afterNumber?, Option.bind_eq_bind, afterInteger?_withReturns, Option.bind_map, Option.map_bind]
  congr 1
  funext t
  simp only [Function.comp_apply, afterFraction?_withReturns, Option.bind_map, Option.map_bind]
  congr 1
  funext t
  exact afterExponent?_withReturns t

theorem isPrefixOf?_withReturns {word : Text} (hfeed : '\n' ∉ word) (hret : '\r' ∉ word) (t : Text) :
    word.isPrefixOf? t.withReturns = (word.isPrefixOf? t).map withReturns := by
  induction word generalizing t with
  | nil => rfl
  | cons w word ih =>
    obtain ⟨hw, hword⟩ := not_or.mp (mt List.mem_cons.mpr hfeed)
    obtain ⟨hw', hword'⟩ := not_or.mp (mt List.mem_cons.mpr hret)
    cases t with
    | nil => rfl
    | cons c t =>
      by_cases hc : c = '\n'
      · subst hc
        rw [withReturns_feed_cons]
        change (if w == '\r' then _ else none) = Option.map withReturns (if w == '\n' then _ else none)
        rw [if_neg (by simpa using Ne.symm hw'), if_neg (by simpa using Ne.symm hw)]
        rfl
      · rw [withReturns_cons hc]
        change (if w == c then _ else none) = Option.map withReturns (if w == c then _ else none)
        split
        · exact ih hword hword' t
        · rfl

/-! ## Tokens -/

theorem token?_withReturns {c : Char} (hfeed : c ≠ '\n') (t : Text) :
    token? c t.withReturns = (token? c t).map fun (token, rest) => (token, rest.withReturns) := by
  unfold token?
  split
  case h_7 => rw [stringPieces?_withReturns, Option.map_map, Option.map_map]; rfl
  case h_8 => rw [afterNumber?_withReturns, Option.map_map, Option.map_map]; rfl
  case h_9 => rw [isPrefixOf?_withReturns (by decide +kernel) (by decide +kernel), Option.map_map, Option.map_map]; rfl
  case h_10 => rw [isPrefixOf?_withReturns (by decide +kernel) (by decide +kernel), Option.map_map, Option.map_map]; rfl
  case h_11 => rw [isPrefixOf?_withReturns (by decide +kernel) (by decide +kernel), Option.map_map, Option.map_map]; rfl
  case h_12 =>
    rw [← withReturns_cons hfeed, afterNumber?_withReturns, Option.map_map, Option.map_map]
    rfl
  all_goals rfl

theorem tokens?_space {c : Char} (h : isSpace c = true) (t : Text) : tokens? (c :: t) = tokens? t := by
  rw [tokens?, if_pos h]

theorem tokens?_token {c : Char} (h : isSpace c = false) (t : Text) : tokens? (c :: t) =
    (token? c t).bind fun (token, rest) => (tokens? rest).map (token :: ·) := by
  rw [tokens?, if_neg (by rw [h]; exact Bool.false_ne_true)]
  cases token? c t <;> rfl

theorem tokens?_withReturns (t : Text) : tokens? t.withReturns = tokens? t := by
  induction h : t.length using Nat.strongRecOn generalizing t with
  | ind n ih =>
    subst h
    cases t with
    | nil => rfl
    | cons c t =>
      by_cases hfeed : c = '\n'
      · subst hfeed
        rw [withReturns_feed_cons, tokens?_space rfl, tokens?_space rfl, tokens?_space rfl]
        exact ih t.length (Nat.lt_succ_self _) t rfl
      · rw [withReturns_cons hfeed]
        cases hspace : isSpace c with
        | true =>
          rw [tokens?_space hspace, tokens?_space hspace]
          exact ih t.length (Nat.lt_succ_self _) t rfl
        | false =>
          rw [tokens?_token hspace, tokens?_token hspace, token?_withReturns hfeed]
          cases htoken : token? c t with
          | none => rfl
          | some result =>
            obtain ⟨token, rest⟩ := result
            have hrest := ih rest.length (Nat.lt_succ_of_le (length_token? htoken)) rest rfl
            exact congrArg (Option.map (token :: ·)) hrest

end Json

theorem Manifest.read?_withReturns (content : Text) : read? content.withReturns = read? content := by
  unfold read?
  rw [Json.tokens?_withReturns]

end ElmImports
