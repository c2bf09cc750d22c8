import ElmImports.Text.Utf8

/-!
# Encoded text is decoded as it was

The decoder gives back every encoded character, whatever bytes follow, so that decoding undoes encoding and
a text can be recognized ahead of bytes that are no text. A byte below 0x80 stands for one character and is
part of no other.
-/

namespace ElmImports.Utf8

/-! ## One byte -/

section
variable {b : UInt8} {bytes : Bytes}

theorem not_lt_of_le {n : Nat} (hn : n ≤ b.toNat) {c : UInt8} (hc : c.toNat ≤ n) : ¬ b < c := by
  rw [UInt8.lt_iff_toNat_lt]
  omega

theorem pieces_ascii (h : b.toNat < 0x80) :
    pieces none (b :: bytes) = some (Char.ofNat b.toNat) :: pieces none bytes := by
  have hb : b < 0x80 := UInt8.lt_iff_toNat_lt.mpr h
  simp [pieces, step, first, hb]

theorem pieces_lead_two (hl : 0xC2 ≤ b.toNat) (hh : b.toNat < 0xE0) :
    pieces none (b :: bytes) = pieces (some ⟨1, 0x80, 0xBF, b.toNat - 0xC0⟩) bytes := by
  have h₁ : ¬ b < 0x80 := not_lt_of_le hl (by decide)
  have h₂ : ¬ b < 0xC2 := not_lt_of_le hl (by decide)
  have h₃ : b < 0xE0 := UInt8.lt_iff_toNat_lt.mpr hh
  simp [pieces, step, first, h₁, h₂, h₃]

theorem pieces_lead_three (hl : 0xE0 ≤ b.toNat) (hh : b.toNat < 0xF0) :
    pieces none (b :: bytes) = pieces (some ⟨2, if b = 0xE0 then 0xA0 else 0x80,
      if b = 0xED then 0x9F else 0xBF, b.toNat - 0xE0⟩) bytes := by
  have h₁ : ¬ b < 0x80 := not_lt_of_le hl (by decide)
  have h₂ : ¬ b < 0xC2 := not_lt_of_le hl (by decide)
  have h₃ : ¬ b < 0xE0 := not_lt_of_le hl (by decide)
  have h₄ : b < 0xF0 := UInt8.lt_iff_toNat_lt.mpr hh
  simp [pieces, step, first, h₁, h₂, h₃, h₄]

theorem pieces_lead_four (hl : 0xF0 ≤ b.toNat) (hh : b.toNat < 0xF5) :
    pieces none (b :: bytes) = pieces (some ⟨3, if b = 0xF0 then 0x90 else 0x80,
      if b = 0xF4 then 0x8F else 0xBF, b.toNat - 0xF0⟩) bytes := by
  have h₁ : ¬ b < 0x80 := not_lt_of_le hl (by decide)
  have h₂ : ¬ b < 0xC2 := not_lt_of_le hl (by decide)
  have h₃ : ¬ b < 0xE0 := not_lt_of_le hl (by decide)
  have h₄ : ¬ b < 0xF0 := not_lt_of_le hl (by decide)
  have h₅ : b < 0xF5 := UInt8.lt_iff_toNat_lt.mpr hh
  simp [pieces, step, first, h₁, h₂, h₃, h₄, h₅]

variable {low high : UInt8} {code : Nat}

theorem pieces_more {owed : Nat} (hl : low.toNat ≤ b.toNat) (hh : b.toNat ≤ high.toNat) :
    pieces (some ⟨owed + 2, low, high, code⟩) (b :: bytes) =
      pieces (some ⟨owed + 1, 0x80, 0xBF, 64 * code + (b.toNat - 0x80)⟩) bytes := by
  have hl : low ≤ b := UInt8.le_iff_toNat_le.mpr hl
  have hh : b ≤ high := UInt8.le_iff_toNat_le.mpr hh
  simp [pieces, step, next, hl, hh]

theorem pieces_last (hl : low.toNat ≤ b.toNat) (hh : b.toNat ≤ high.toNat) :
    pieces (some ⟨1, low, high, code⟩) (b :: bytes) =
      some (Char.ofNat (64 * code + (b.toNat - 0x80))) :: pieces none bytes := by
  have hl : low ≤ b := UInt8.le_iff_toNat_le.mpr hl
  have hh : b ≤ high := UInt8.le_iff_toNat_le.mpr hh
  simp [pieces, step, next, hl, hh]

end

/-! ## One character -/

theorem toNat_ofNat_lt {n : Nat} (h : n < 256) : (UInt8.ofNat n).toNat = n := by
  rw [UInt8.toNat_ofNat', Nat.mod_eq_of_lt h]

section
variable {v : Nat} (bytes : Bytes)

theorem pieces_one (h : v < 0x80) :
    pieces none (UInt8.ofNat v :: bytes) = some (Char.ofNat v) :: pieces none bytes := by
  have hb := toNat_ofNat_lt (show v < 256 by omega)
  rw [pieces_ascii (by omega), hb]

theorem pieces_two (hl : 0x80 ≤ v) (hh : v < 0x800) :
    pieces none (UInt8.ofNat (v / 64 % 32 + 0xC0) :: UInt8.ofNat (v % 64 + 0x80) :: bytes) =
      some (Char.ofNat v) :: pieces none bytes := by
  have hb₀ := toNat_ofNat_lt (show v / 64 % 32 + 0xC0 < 256 by omega)
  have hb₁ := toNat_ofNat_lt (show v % 64 + 0x80 < 256 by omega)
  generalize UInt8.ofNat (v / 64 % 32 + 0xC0) = b₀ at hb₀ ⊢
  generalize UInt8.ofNat (v % 64 + 0x80) = b₁ at hb₁ ⊢
  have hv : 64 * (b₀.toNat - 0xC0) + (b₁.toNat - 0x80) = v := by omega
  rw [pieces_lead_two (by omega) (by omega), pieces_last (by simp; omega) (by simp; omega), hv]

theorem pieces_three (hl : 0x800 ≤ v) (hh : v < 0x10000) (hs : v < 0xD800 ∨ 0xDFFF < v) :
    pieces none (UInt8.ofNat (v / 4096 % 16 + 0xE0) :: UInt8.ofNat (v / 64 % 64 + 0x80) ::
      UInt8.ofNat (v % 64 + 0x80) :: bytes) = some (Char.ofNat v) :: pieces none bytes := by
  have hb₀ := toNat_ofNat_lt (show v / 4096 % 16 + 0xE0 < 256 by omega)
  have hb₁ := toNat_ofNat_lt (show v / 64 % 64 + 0x80 < 256 by omega)
  have hb₂ := toNat_ofNat_lt (show v % 64 + 0x80 < 256 by omega)
  generalize UInt8.ofNat (v / 4096 % 16 + 0xE0) = b₀ at hb₀ ⊢
  generalize UInt8.ofNat (v / 64 % 64 + 0x80) = b₁ at hb₁ ⊢
  generalize UInt8.ofNat (v % 64 + 0x80) = b₂ at hb₂ ⊢
  -- the range of the second byte is narrower behind 0xE0 (overlong) and behind 0xED (surrogates)
  have hlow : (if b₀ = 0xE0 then (0xA0 : UInt8) else 0x80).toNat ≤ b₁.toNat := by
    split
    · rename_i he; subst he; simp at hb₀ ⊢; omega
    · simp; omega
  have hhigh : b₁.toNat ≤ (if b₀ = 0xED then (0x9F : UInt8) else 0xBF).toNat := by
    split
    · rename_i he; subst he; simp at hb₀ ⊢; omega
    · simp; omega
  have hv : 64 * (64 * (b₀.toNat - 0xE0) + (b₁.toNat - 0x80)) + (b₂.toNat - 0x80) = v := by omega
  rw [pieces_lead_three (by omega) (by omega), pieces_more hlow hhigh,
    pieces_last (by simp; omega) (by simp; omega), hv]

theorem pieces_four (hl : 0x10000 ≤ v) (hh : v < 0x110000) :
    pieces none (UInt8.ofNat (v / 262144 % 8 + 0xF0) :: UInt8.ofNat (v / 4096 % 64 + 0x80) ::
      UInt8.ofNat (v / 64 % 64 + 0x80) :: UInt8.ofNat (v % 64 + 0x80) :: bytes) =
      some (Char.ofNat v) :: pieces none bytes := by
  have hb₀ := toNat_ofNat_lt (show v / 262144 % 8 + 0xF0 < 256 by omega)
  have hb₁ := toNat_ofNat_lt (show v / 4096 % 64 + 0x80 < 256 by omega)
  have hb₂ := toNat_ofNat_lt (show v / 64 % 64 + 0x80 < 256 by omega)
  have hb₃ := toNat_ofNat_lt (show v % 64 + 0x80 < 256 by omega)
  generalize UInt8.ofNat (v / 262144 % 8 + 0xF0) = b₀ at hb₀ ⊢
  generalize UInt8.ofNat (v / 4096 % 64 + 0x80) = b₁ at hb₁ ⊢
  generalize UInt8.ofNat (v / 64 % 64 + 0x80) = b₂ at hb₂ ⊢
  generalize UInt8.ofNat (v % 64 + 0x80) = b₃ at hb₃ ⊢
  -- the range of the second byte is narrower behind 0xF0 (overlong) and behind 0xF4 (above U+10FFFF)
  have hlow : (if b₀ = 0xF0 then (0x90 : UInt8) else 0x80).toNat ≤ b₁.toNat := by
    split
    · rename_i he; subst he; simp at hb₀ ⊢; omega
    · simp; omega
  have hhigh : b₁.toNat ≤ (if b₀ = 0xF4 then (0x8F : UInt8) else 0xBF).toNat := by
    split
    · rename_i he; subst he; simp at hb₀ ⊢; omega
    · simp; omega
  have hv : 64 * (64 * (64 * (b₀.toNat - 0xF0) + (b₁.toNat - 0x80)) + (b₂.toNat - 0x80)) +
      (b₃.toNat - 0x80) = v := by omega
  rw [pieces_lead_four (by omega) (by omega), pieces_more hlow hhigh,
    pieces_more (by simp; omega) (by simp; omega), pieces_last (by simp; omega) (by simp; omega), hv]

end

/-- No character lies among the surrogates or above U+10FFFF. -/
theorem toNat_char (c : Char) : c.toNat < 0xD800 ∨ 0xDFFF < c.toNat ∧ c.toNat < 0x110000 :=
  c.valid

theorem utf8EncodeChar_eq {c : Char} {v : Nat} (h : c.toNat = v) : String.utf8EncodeChar c =
    if v ≤ 0x7F then [UInt8.ofNat v]
    else if v ≤ 0x7FF then [UInt8.ofNat (v / 64 % 32 + 0xC0), UInt8.ofNat (v % 64 + 0x80)]
    else if v ≤ 0xFFFF then [UInt8.ofNat (v / 4096 % 16 + 0xE0), UInt8.ofNat (v / 64 % 64 + 0x80),
      UInt8.ofNat (v % 64 + 0x80)]
    else [UInt8.ofNat (v / 262144 % 8 + 0xF0), UInt8.ofNat (v / 4096 % 64 + 0x80),
      UInt8.ofNat (v / 64 % 64 + 0x80), UInt8.ofNat (v % 64 + 0x80)] := by
  subst h
  rfl

theorem pieces_utf8EncodeChar (c : Char) (bytes : Bytes) :
    pieces none (String.utf8EncodeChar c ++ bytes) = some c :: pieces none bytes := by
  obtain ⟨v, hv⟩ : ∃ v, c.toNat = v := ⟨_, rfl⟩
  have hvalid := hv ▸ toNat_char c
  have hc : c = Char.ofNat v := by rw [← hv, Char.ofNat_toNat]
  rw [utf8EncodeChar_eq hv, hc]
  split
  · exact pieces_one bytes (by omega)
  · split
    · exact pieces_two bytes (by omega) (by omega)
    · split
      · exact pieces_three bytes (by omega) (by omega) (by omega)
      · exact pieces_four bytes (by omega) (by omega)

/-! ## Text -/

theorem pieces_encode_append (t : Text) (bytes : Bytes) :
    pieces none (encode t ++ bytes) = t.map some ++ pieces none bytes := by
  induction t with
  | nil => rfl
  | cons c t ih =>
    unfold encode at ih ⊢
    rw [List.flatMap_cons, List.append_assoc, pieces_utf8EncodeChar, ih, List.map_cons, List.cons_append]

theorem decodeLossy_encode_append (t : Text) (bytes : Bytes) :
    decodeLossy (encode t ++ bytes) = t ++ decodeLossy bytes := by
  unfold decodeLossy
  rw [pieces_encode_append, List.map_append, List.map_map]
  exact congrArg (· ++ _) (List.map_id t)

@[simp]
theorem decodeLossy_encode (t : Text) : decodeLossy (encode t) = t := by
  have h := decodeLossy_encode_append t []
  rwa [List.append_nil, show decodeLossy [] = [] from rfl, List.append_nil] at h

theorem encode_injective : Function.Injective encode :=
  Function.LeftInverse.injective decodeLossy_encode

@[simp]
theorem encode_append (s t : Text) : encode (s ++ t) = encode s ++ encode t :=
  List.flatMap_append

/-! ## Bytes that stand for one character -/

theorem utf8EncodeChar_ascii {c : Char} (h : c.toNat < 0x80) :
    String.utf8EncodeChar c = [UInt8.ofNat c.toNat] := by
  rw [utf8EncodeChar_eq rfl, if_pos (by omega)]

theorem le_of_mem_utf8EncodeChar {c : Char} (h : 0x80 ≤ c.toNat) {b : UInt8}
    (hb : b ∈ String.utf8EncodeChar c) : 0x80 ≤ b.toNat := by
  have hvalid := toNat_char c
  have hhigh : ∀ {n : Nat}, 0x80 ≤ n → n < 256 → 0x80 ≤ (UInt8.ofNat n).toNat := by
    intro n hl hh
    rwa [toNat_ofNat_lt hh]
  rw [utf8EncodeChar_eq rfl, if_neg (by omega)] at hb
  split at hb
  · simp only [List.mem_cons, List.not_mem_nil, or_false] at hb
    rcases hb with rfl | rfl <;> exact hhigh (by omega) (by omega)
  · split at hb <;> simp only [List.mem_cons, List.not_mem_nil, or_false] at hb
    · rcases hb with rfl | rfl | rfl <;> exact hhigh (by omega) (by omega)
    · rcases hb with rfl | rfl | rfl | rfl <;> exact hhigh (by omega) (by omega)

/-- An ASCII character is one byte, which occurs where the character does and nowhere else. -/
theorem mem_encode {c : Char} (hc : c.toNat < 0x80) {t : Text} :
    UInt8.ofNat c.toNat ∈ encode t ↔ c ∈ t := by
  unfold encode
  rw [List.mem_flatMap]
  constructor
  · rintro ⟨d, hd, hmem⟩
    have hb := toNat_ofNat_lt (show c.toNat < 256 by omega)
    by_cases hlow : d.toNat < 0x80
    · rw [utf8EncodeChar_ascii hlow, List.mem_singleton] at hmem
      have hcd : c.toNat = d.toNat := by rw [← hb, hmem, toNat_ofNat_lt (by omega)]
      rwa [Char.toNat_inj.mp hcd]
    · have := le_of_mem_utf8EncodeChar (Nat.le_of_not_lt hlow) hmem
      omega
  · intro h
    exact ⟨c, h, by rw [utf8EncodeChar_ascii hc]; exact List.mem_singleton.mpr rfl⟩

end ElmImports.Utf8
