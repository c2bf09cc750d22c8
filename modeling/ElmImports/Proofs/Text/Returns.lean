import ElmImports.Proofs.Text.Ascii

/-!
# Carriage returns ahead of line feeds

A text whose lines end in a carriage return and a line feed is made from one whose lines end in a line feed alone.
Whether the returns are put in before decoding or after it makes no difference, since a line feed is no part of any
other character.
-/

namespace ElmImports

section
variable {α : Type} [DecidableEq α]

/-- A list is read line by line: it is one line, or a line, what ends it and the rest. -/
@[elab_as_elim]
theorem lineInduction (feed : α) {motive : List α → Prop} (last : ∀ line, feed ∉ line → motive line)
    (line : ∀ line rest, feed ∉ line → motive rest → motive (line ++ feed :: rest)) (l : List α) : motive l := by
  by_cases h : feed ∈ l
  · obtain ⟨first, rest, he, hfirst⟩ := List.eq_append_cons_of_mem h
    have hshorter : rest.length < l.length := by
      rw [he, List.length_append, List.length_cons]
      omega
    rw [he]
    exact line first rest hfirst (lineInduction feed last line rest)
  · exact last l h
termination_by l.length

def insertReturns (ret feed : α) (l : List α) : List α :=
  l.flatMap fun a => if a = feed then [ret, feed] else [a]

variable {ret feed : α}

theorem insertReturns_feed_cons (l : List α) :
    insertReturns ret feed (feed :: l) = ret :: feed :: insertReturns ret feed l := by
  simp [insertReturns]

theorem insertReturns_cons {a : α} (h : a ≠ feed) (l : List α) :
    insertReturns ret feed (a :: l) = a :: insertReturns ret feed l := by
  simp [insertReturns, h]

theorem insertReturns_append (l m : List α) :
    insertReturns ret feed (l ++ m) = insertReturns ret feed l ++ insertReturns ret feed m :=
  List.flatMap_append

theorem insertReturns_of_not_mem {l : List α} (h : feed ∉ l) : insertReturns ret feed l = l := by
  induction l with
  | nil => rfl
  | cons a l ih =>
    obtain ⟨ha, hl⟩ := not_or.mp (mt List.mem_cons.mpr h)
    rw [insertReturns_cons (Ne.symm ha), ih hl]

theorem insertReturns_line {line : List α} (h : feed ∉ line) (rest : List α) :
    insertReturns ret feed (line ++ feed :: rest) = line ++ ret :: feed :: insertReturns ret feed rest := by
  rw [insertReturns_append, insertReturns_of_not_mem h, insertReturns_feed_cons]

/-- What comes ahead of the first return was there before. -/
theorem eq_append_of_insertReturns : ∀ {used l more : List α}, ret ∉ used →
    insertReturns ret feed l = used ++ more → ∃ rest, l = used ++ rest
  | [], l, _, _, _ => ⟨l, rfl⟩
  | u :: used, [], _, _, h => by cases h
  | u :: used, a :: l, more, hused, h => by
    obtain ⟨hu, hrest⟩ := not_or.mp (mt List.mem_cons.mpr hused)
    by_cases ha : a = feed
    · rw [ha, insertReturns_feed_cons] at h
      exact absurd (List.cons.inj h).1 hu
    · rw [insertReturns_cons ha] at h
      obtain ⟨rfl, htail⟩ := List.cons.inj h
      obtain ⟨rest, rfl⟩ := eq_append_of_insertReturns hrest htail
      exact ⟨rest, rfl⟩

end

/-! ## Bytes and text -/

def Bytes.withReturns (bytes : Bytes) : Bytes :=
  insertReturns 0x0D 0x0A bytes

def Text.withReturns (t : Text) : Text :=
  insertReturns '\r' '\n' t

namespace Utf8

theorem lineFeed_not_mem_decodeLossy {bytes : Bytes} (h : 0x0A ∉ bytes) : '\n' ∉ decodeLossy bytes :=
  fun hmem => h (mem_decodeLossy (by decide) hmem)

theorem decode?_withReturns (bytes : Bytes) : decode? bytes.withReturns = (decode? bytes).map Text.withReturns := by
  induction bytes using lineInduction (0x0A : UInt8) with
  | last line h =>
    have hline : Bytes.withReturns line = line := insertReturns_of_not_mem h
    rw [hline]
    cases ht : decode? line with
    | none => rfl
    | some t =>
      have hfeed : '\n' ∉ t := by
        rw [← decodeLossy_of_decode? ht]
        exact lineFeed_not_mem_decodeLossy h
      have htext : t.withReturns = t := insertReturns_of_not_mem hfeed
      rw [Option.map_some, htext]
  | line line rest h ih =>
    have hline : Bytes.withReturns (line ++ 0x0A :: rest) = line ++ 0x0D :: ([] ++ 0x0A :: Bytes.withReturns rest) :=
      insertReturns_line h rest
    rw [hline, decode?_append_ascii (by decide), decode?_append_ascii (by decide), decode?_append_ascii (by decide), ih]
    cases ht : decode? line with
    | none => rfl
    | some t =>
      have hfeed : '\n' ∉ t := by
        rw [← decodeLossy_of_decode? ht]
        exact lineFeed_not_mem_decodeLossy h
      cases decode? rest with
      | none => rfl
      | some more => exact congrArg some (insertReturns_line hfeed more).symm

end Utf8

end ElmImports
