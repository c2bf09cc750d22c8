import ElmImports.Module.Header
import ElmImports.Proofs.Lines.Drain
import ElmImports.Proofs.Text.Returns

/-!
# Lines with either end

A line that is read loses one carriage return at its end, and the first line of a file loses all of them. So where a
file has no carriage return of its own, putting one ahead of each line feed changes none of its lines.
-/

namespace ElmImports

namespace Reader

theorem decodeLine_append_return (line : Bytes) : decodeLine (line ++ [0x0D]) = Utf8.decodeLossy line := by
  unfold decodeLine
  rw [List.getLast?_concat, if_pos rfl, List.dropLast_concat]

theorem decodeLine_of_not_mem {line : Bytes} (h : 0x0D ∉ line) : decodeLine line = Utf8.decodeLossy line := by
  unfold decodeLine
  rw [if_neg fun hlast => h (List.mem_of_getLast? hlast)]

end Reader

theorem lines_withReturns {content : Bytes} (h : 0x0D ∉ content) :
    (rawLines content.withReturns).map Reader.decodeLine = (rawLines content).map Reader.decodeLine := by
  induction content using lineInduction (0x0A : UInt8) with
  | last line hline =>
    have hsame : Bytes.withReturns line = line := insertReturns_of_not_mem hline
    rw [hsame]
  | line line rest hline ih =>
    obtain ⟨hret, hrest⟩ := not_or.mp (mt List.mem_append.mpr h)
    have hrest : 0x0D ∉ rest := fun hmem => hrest (List.mem_cons_of_mem _ hmem)
    have hsplit : Bytes.withReturns (line ++ 0x0A :: rest) =
        (line ++ [0x0D]) ++ lineFeed :: Bytes.withReturns rest := by
      rw [List.append_assoc]
      exact insertReturns_line hline rest
    have hfeed : lineFeed ∉ line ++ [0x0D] := by
      rw [List.mem_append, not_or]
      exact ⟨hline, by decide⟩
    have hlines : rawLines (line ++ 0x0A :: rest) = line :: rawLines rest := rawLines_append_lineFeed hline rest
    rw [hsplit, rawLines_append_lineFeed hfeed, hlines, List.map_cons, List.map_cons, ih hrest,
      Reader.decodeLine_append_return, Reader.decodeLine_of_not_mem hret]

theorem takeWhile_line {line : Bytes} (h : 0x0A ∉ line) (rest : Bytes) :
    (line ++ 0x0A :: rest).takeWhile (· != 0x0A) = line := by
  have hkept : ∀ b ∈ line, (b != 0x0A) = true := fun b hb => bne_iff_ne.mpr fun he => h (he ▸ hb)
  rw [List.takeWhile_append_of_pos hkept, List.takeWhile_cons_of_neg (by decide), List.append_nil]

theorem firstLine_withReturns (content : Bytes) : firstLine content.withReturns = firstLine content := by
  induction content using lineInduction (0x0A : UInt8) with
  | last line hline =>
    have hsame : Bytes.withReturns line = line := insertReturns_of_not_mem hline
    rw [hsame]
  | line line rest hline _ =>
    have hsplit : Bytes.withReturns (line ++ 0x0A :: rest) = (line ++ [0x0D]) ++ 0x0A :: Bytes.withReturns rest := by
      rw [List.append_assoc]
      exact insertReturns_line hline rest
    have hfeed : 0x0A ∉ line ++ [0x0D] := by
      rw [List.mem_append, not_or]
      exact ⟨hline, by decide⟩
    unfold firstLine
    rw [hsplit, takeWhile_line hfeed, takeWhile_line hline, Utf8.decodeLossy_append_ascii (by decide),
      List.reverse_append]
    -- the return ends the decoded line, and line ends are dropped there
    rfl

end ElmImports
