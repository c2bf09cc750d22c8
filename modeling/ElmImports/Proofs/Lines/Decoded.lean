import ElmImports.Proofs.Lines.Returns
import ElmImports.Proofs.Text.Lossy

/-!
# Lines of decoded text

A file can be cut into lines before it is decoded or after it. A line feed and a carriage return are bytes of their own,
which break off a character that is unfinished and are never a part of one, so that each line is decoded as it stands
in the whole, and what is replaced in it is what is replaced there.
-/

namespace ElmImports

namespace Utf8

/-! ## The ends of decoded text -/

theorem decodeLossy_ne_nil {bytes : Bytes} (h : bytes ≠ []) : decodeLossy bytes ≠ [] := by
  intro hnil
  cases decodes_iff.mpr hnil
  exact h rfl

theorem getLast?_decodeLossy {bytes : Bytes} :
    (decodeLossy bytes).getLast? = some '\r' ↔ bytes.getLast? = some 0x0D := by
  induction bytes using lineInduction (0x0D : UInt8) with
  | last line h =>
    have hret : '\r' ∉ decodeLossy line := fun hmem => h (mem_decodeLossy (by decide) hmem)
    exact ⟨fun hl => absurd (List.mem_of_getLast? hl) hret, fun hl => absurd (List.mem_of_getLast? hl) h⟩
  | line line rest h ih =>
    rw [decodeLossy_append_ascii (by decide), List.getLast?_append_cons, List.getLast?_append_cons]
    cases rest with
    | nil => exact ⟨fun _ => rfl, fun _ => rfl⟩
    | cons b rest =>
      obtain ⟨c, t, ht⟩ := List.exists_cons_of_ne_nil (decodeLossy_ne_nil (List.cons_ne_nil b rest))
      rw [ht] at ih ⊢
      rw [List.getLast?_cons_cons, List.getLast?_cons_cons, ih]

theorem count_lineFeed_decodeLossy (bytes : Bytes) : (decodeLossy bytes).count '\n' = bytes.count lineFeed := by
  induction bytes using lineInduction lineFeed with
  | last line h =>
    rw [List.count_eq_zero_of_not_mem h, List.count_eq_zero_of_not_mem (lineFeed_not_mem_decodeLossy h)]
  | line line rest h ih =>
    have hfeed : (decodeLossy (line ++ lineFeed :: rest)) = decodeLossy line ++ '\n' :: decodeLossy rest :=
      decodeLossy_append_ascii (by decide) line rest
    rw [hfeed, List.count_append, List.count_append, List.count_cons_self, List.count_cons_self, ih,
      List.count_eq_zero_of_not_mem h, List.count_eq_zero_of_not_mem (lineFeed_not_mem_decodeLossy h)]

end Utf8

/-! ## The lines of a text -/

namespace Text

def withoutReturn (line : Text) : Text :=
  if line.getLast? = some '\r' then line.dropLast else line

/-- The lines of a text, each without one carriage return at its end. -/
def lines (t : Text) : List Text :=
  (Pieces.lines '\n' t).map withoutReturn

theorem withoutReturn_concat (line : Text) : withoutReturn (line ++ ['\r']) = line := by
  unfold withoutReturn
  rw [List.getLast?_concat, if_pos rfl, List.dropLast_concat]

theorem lines_of_not_mem {line : Text} (h : '\n' ∉ line) (hne : line ≠ []) : line.lines = [line.withoutReturn] := by
  unfold lines
  rw [Pieces.lines_of_not_mem h hne]
  rfl

theorem lines_append_feed {line : Text} (h : '\n' ∉ line) (rest : Text) :
    lines (line ++ '\n' :: rest) = line.withoutReturn :: lines rest := by
  unfold lines
  rw [Pieces.lines_append_feed h]
  rfl

section
variable {c : Char} (hret : c ≠ '\r')
include hret

theorem count_withoutReturn (line : Text) : line.withoutReturn.count c = line.count c := by
  unfold withoutReturn
  by_cases hlast : line.getLast? = some '\r'
  · obtain ⟨init, rfl⟩ := List.getLast?_eq_some_iff.mp hlast
    rw [if_pos hlast, List.dropLast_concat, List.count_append, List.count_singleton, if_neg (by simpa using hret.symm)]
    rfl
  · rw [if_neg hlast]

theorem count_flatten_lines (hfeed : c ≠ '\n') (t : Text) : t.lines.flatten.count c = t.count c := by
  induction t using lineInduction '\n' with
  | last line h =>
    by_cases hne : line = []
    · rw [hne]
      rfl
    · rw [lines_of_not_mem h hne, List.flatten_singleton, count_withoutReturn hret]
  | line line rest h ih =>
    rw [lines_append_feed h, List.flatten_cons, List.count_append, List.count_append, count_withoutReturn hret, ih,
      List.count_cons_of_ne hfeed.symm]

end

end Text

/-! ## Cutting and decoding -/

theorem Reader.decodeLine_eq (line : Bytes) : decodeLine line = (Utf8.decodeLossy line).withoutReturn := by
  by_cases hlast : line.getLast? = some 0x0D
  · obtain ⟨init, rfl⟩ := List.getLast?_eq_some_iff.mp hlast
    have hret : Utf8.decodeLossy (init ++ [0x0D]) = Utf8.decodeLossy init ++ ['\r'] :=
      Utf8.decodeLossy_append_ascii (by decide) init []
    rw [decodeLine_append_return, hret, Text.withoutReturn_concat]
  · unfold decodeLine Text.withoutReturn
    rw [if_neg hlast, if_neg (mt Utf8.getLast?_decodeLossy.mp hlast)]

theorem map_decodeLine_rawLines (bytes : Bytes) :
    (rawLines bytes).map Reader.decodeLine = (Utf8.decodeLossy bytes).lines := by
  induction bytes using lineInduction lineFeed with
  | last line h =>
    have hfeed := Utf8.lineFeed_not_mem_decodeLossy h
    by_cases hne : line = []
    · rw [hne]
      rfl
    · rw [rawLines_of_not_mem h hne, Text.lines_of_not_mem hfeed (Utf8.decodeLossy_ne_nil hne), List.map_singleton,
        Reader.decodeLine_eq]
  | line line rest h ih =>
    have hfeed : Utf8.decodeLossy (line ++ lineFeed :: rest) = Utf8.decodeLossy line ++ '\n' :: Utf8.decodeLossy rest :=
      Utf8.decodeLossy_append_ascii (by decide) line rest
    rw [rawLines_append_lineFeed h, hfeed, Text.lines_append_feed (Utf8.lineFeed_not_mem_decodeLossy h), List.map_cons,
      Reader.decodeLine_eq, ih]

theorem linesIn_drain_ofSource (source : Source) (chunk : Nat) :
    Reader.linesIn (Reader.ofSource source chunk).drain.1 = (Utf8.decodeLossy source.received).lines := by
  rw [(Reader.drain_spec (Reader.steady_ofSource source chunk)).1]
  exact map_decodeLine_rawLines source.received

/-- Bytes are read as text in one way, with one U+FFFD for each run that is no text. The lines of that text are those
that are decoded one by one, however the bytes arrive: no line feed is lost, and as much is replaced. -/
theorem lines_of_decoded_bytes (bytes : Bytes) :
    (∀ t, Utf8.Decodes bytes t ↔ Utf8.decodeLossy bytes = t) ∧
      (rawLines bytes).map Reader.decodeLine = (Utf8.decodeLossy bytes).lines ∧
      (Utf8.decodeLossy bytes).count '\n' = bytes.count lineFeed ∧
      ((rawLines bytes).map Reader.decodeLine).flatten.count '\uFFFD' = (Utf8.decodeLossy bytes).count '\uFFFD' ∧
      ∀ (source : Source) (chunk : Nat),
        Reader.linesIn (Reader.ofSource source chunk).drain.1 = (Utf8.decodeLossy source.received).lines := by
  have hlines := map_decodeLine_rawLines bytes
  have hreplaced := Text.count_flatten_lines (c := '\uFFFD') (by decide) (by decide) (Utf8.decodeLossy bytes)
  rw [← hlines] at hreplaced
  exact ⟨fun _ => Utf8.decodes_iff, hlines, Utf8.count_lineFeed_decodeLossy bytes, hreplaced, linesIn_drain_ofSource⟩

end ElmImports
