import ElmImports.Proofs.Text.Ascii
import Mathlib.Data.List.Basic

/-!
# What lossy decoding replaces

Bytes that are no text are replaced run by run: a byte that begins no character, or a longest run of bytes that begins
one and leaves it unfinished. What is pending in the decoder says which bytes can finish the character, so that it gives
up at the first byte with which no character goes on, and decodes as every reading of the bytes in such runs does.
-/

namespace ElmImports.Utf8

/-! ## The bytes of a character -/

def IsTail (b : UInt8) : Prop :=
  0x80 ≤ b ∧ b ≤ 0xBF

inductive IsEncoding : Bytes → Prop
  | one {b₀ : UInt8} : b₀ < 0x80 → IsEncoding [b₀]
  | two {b₀ b₁ : UInt8} : 0xC2 ≤ b₀ → b₀ < 0xE0 → IsTail b₁ → IsEncoding [b₀, b₁]
  | three {b₀ b₁ b₂ : UInt8} : 0xE0 ≤ b₀ → b₀ < 0xF0 →
      (if b₀ = 0xE0 then 0xA0 else 0x80) ≤ b₁ → b₁ ≤ (if b₀ = 0xED then 0x9F else 0xBF) →
      IsTail b₂ → IsEncoding [b₀, b₁, b₂]
  | four {b₀ b₁ b₂ b₃ : UInt8} : 0xF0 ≤ b₀ → b₀ < 0xF5 →
      (if b₀ = 0xF0 then 0x90 else 0x80) ≤ b₁ → b₁ ≤ (if b₀ = 0xF4 then 0x8F else 0xBF) →
      IsTail b₂ → IsTail b₃ → IsEncoding [b₀, b₁, b₂, b₃]

theorem isTail_iff {b : UInt8} : IsTail b ↔ 0x80 ≤ b.toNat ∧ b.toNat ≤ 0xBF :=
  and_congr UInt8.le_iff_toNat_le UInt8.le_iff_toNat_le

section
variable {b lead narrow wide b₁ : UInt8}

theorem narrowed_le_iff : (if b = lead then narrow else wide) ≤ b₁ ↔
    b.toNat = lead.toNat ∧ narrow.toNat ≤ b₁.toNat ∨ b.toNat ≠ lead.toNat ∧ wide.toNat ≤ b₁.toNat := by
  rw [UInt8.le_iff_toNat_le]
  by_cases hb : b = lead
  · simp [hb]
  · simp [hb, UInt8.toNat_inj]

theorem le_narrowed_iff : b₁ ≤ (if b = lead then narrow else wide) ↔
    b.toNat = lead.toNat ∧ b₁.toNat ≤ narrow.toNat ∨ b.toNat ≠ lead.toNat ∧ b₁.toNat ≤ wide.toNat := by
  rw [UInt8.le_iff_toNat_le]
  by_cases hb : b = lead
  · simp [hb]
  · simp [hb, UInt8.toNat_inj]

end

theorem isTail_ofNat (n : Nat) : IsTail (UInt8.ofNat (n % 64 + 0x80)) := by
  have hn := toNat_ofNat_lt (show n % 64 + 0x80 < 256 by omega)
  rw [isTail_iff, hn]
  omega

theorem isEncoding_utf8EncodeChar (c : Char) : IsEncoding (String.utf8EncodeChar c) := by
  obtain ⟨v, hv⟩ : ∃ v, c.toNat = v := ⟨_, rfl⟩
  have hvalid := hv ▸ toNat_char c
  rw [utf8EncodeChar_eq hv]
  by_cases h₁ : v ≤ 0x7F
  · rw [if_pos h₁]
    have hb := toNat_ofNat_lt (show v < 256 by omega)
    exact .one (UInt8.lt_iff_toNat_lt.mpr (by rw [hb]; exact Nat.lt_succ_of_le h₁))
  rw [if_neg h₁]
  by_cases h₂ : v ≤ 0x7FF
  · rw [if_pos h₂]
    have hb := toNat_ofNat_lt (show v / 64 % 32 + 0xC0 < 256 by omega)
    refine .two (UInt8.le_iff_toNat_le.mpr ?_) (UInt8.lt_iff_toNat_lt.mpr ?_) (isTail_ofNat v) <;>
      rw [hb] <;> simp <;> omega
  rw [if_neg h₂]
  by_cases h₃ : v ≤ 0xFFFF
  · rw [if_pos h₃]
    have hb₀ := toNat_ofNat_lt (show v / 4096 % 16 + 0xE0 < 256 by omega)
    have hb₁ := toNat_ofNat_lt (show v / 64 % 64 + 0x80 < 256 by omega)
    refine .three (UInt8.le_iff_toNat_le.mpr ?_) (UInt8.lt_iff_toNat_lt.mpr ?_) (narrowed_le_iff.mpr ?_)
      (le_narrowed_iff.mpr ?_) (isTail_ofNat v) <;> simp only [hb₀, hb₁] <;> simp <;> omega
  rw [if_neg h₃]
  have hb₀ := toNat_ofNat_lt (show v / 262144 % 8 + 0xF0 < 256 by omega)
  have hb₁ := toNat_ofNat_lt (show v / 4096 % 64 + 0x80 < 256 by omega)
  refine .four (UInt8.le_iff_toNat_le.mpr ?_) (UInt8.lt_iff_toNat_lt.mpr ?_) (narrowed_le_iff.mpr ?_)
    (le_narrowed_iff.mpr ?_) (isTail_ofNat (v / 64)) (isTail_ofNat v) <;> simp only [hb₀, hb₁] <;> simp <;> omega

theorem exists_char {v : Nat} (h : v < 0xD800 ∨ 0xDFFF < v ∧ v < 0x110000) : ∃ c : Char, c.toNat = v :=
  ⟨Char.ofNatAux v h, rfl⟩

theorem ofNat_eq {n : Nat} {b : UInt8} (h : n = b.toNat) : UInt8.ofNat n = b := by
  rw [h, UInt8.ofNat_toNat]

theorem exists_utf8EncodeChar {bytes : Bytes} (h : IsEncoding bytes) : ∃ c, String.utf8EncodeChar c = bytes := by
  cases h with
  | @one b₀ h₀ =>
    have h₀ : b₀.toNat < 0x80 := UInt8.lt_iff_toNat_lt.mp h₀
    obtain ⟨c, hc⟩ := exists_char (v := b₀.toNat) (.inl (by omega))
    exact ⟨c, by rw [utf8EncodeChar_eq hc, if_pos (by omega), ofNat_eq rfl]⟩
  | @two b₀ b₁ hl hh h₁ =>
    have hl : 0xC2 ≤ b₀.toNat := UInt8.le_iff_toNat_le.mp hl
    have hh : b₀.toNat < 0xE0 := UInt8.lt_iff_toNat_lt.mp hh
    rw [isTail_iff] at h₁
    obtain ⟨c, hc⟩ := exists_char (v := 64 * (b₀.toNat - 0xC0) + (b₁.toNat - 0x80)) (.inl (by omega))
    refine ⟨c, ?_⟩
    rw [utf8EncodeChar_eq hc, if_neg (by omega), if_pos (by omega), ofNat_eq (b := b₀) (by omega),
      ofNat_eq (b := b₁) (by omega)]
  | @three b₀ b₁ b₂ hl hh hlow hhigh h₂ =>
    have hl : 0xE0 ≤ b₀.toNat := UInt8.le_iff_toNat_le.mp hl
    have hh : b₀.toNat < 0xF0 := UInt8.lt_iff_toNat_lt.mp hh
    have hlow : b₀.toNat = 0xE0 ∧ 0xA0 ≤ b₁.toNat ∨ b₀.toNat ≠ 0xE0 ∧ 0x80 ≤ b₁.toNat := narrowed_le_iff.mp hlow
    have hhigh : b₀.toNat = 0xED ∧ b₁.toNat ≤ 0x9F ∨ b₀.toNat ≠ 0xED ∧ b₁.toNat ≤ 0xBF := le_narrowed_iff.mp hhigh
    rw [isTail_iff] at h₂
    obtain ⟨c, hc⟩ := exists_char
      (v := 4096 * (b₀.toNat - 0xE0) + 64 * (b₁.toNat - 0x80) + (b₂.toNat - 0x80)) (by omega)
    refine ⟨c, ?_⟩
    rw [utf8EncodeChar_eq hc, if_neg (by omega), if_neg (by omega), if_pos (by omega), ofNat_eq (b := b₀) (by omega),
      ofNat_eq (b := b₁) (by omega), ofNat_eq (b := b₂) (by omega)]
  | @four b₀ b₁ b₂ b₃ hl hh hlow hhigh h₂ h₃ =>
    have hl : 0xF0 ≤ b₀.toNat := UInt8.le_iff_toNat_le.mp hl
    have hh : b₀.toNat < 0xF5 := UInt8.lt_iff_toNat_lt.mp hh
    have hlow : b₀.toNat = 0xF0 ∧ 0x90 ≤ b₁.toNat ∨ b₀.toNat ≠ 0xF0 ∧ 0x80 ≤ b₁.toNat := narrowed_le_iff.mp hlow
    have hhigh : b₀.toNat = 0xF4 ∧ b₁.toNat ≤ 0x8F ∨ b₀.toNat ≠ 0xF4 ∧ b₁.toNat ≤ 0xBF := le_narrowed_iff.mp hhigh
    rw [isTail_iff] at h₂ h₃
    obtain ⟨c, hc⟩ := exists_char
      (v := 262144 * (b₀.toNat - 0xF0) + 4096 * (b₁.toNat - 0x80) + 64 * (b₂.toNat - 0x80) + (b₃.toNat - 0x80))
      (by omega)
    refine ⟨c, ?_⟩
    rw [utf8EncodeChar_eq hc, if_neg (by omega), if_neg (by omega), if_neg (by omega), ofNat_eq (b := b₀) (by omega),
      ofNat_eq (b := b₁) (by omega), ofNat_eq (b := b₂) (by omega), ofNat_eq (b := b₃) (by omega)]

theorem isEncoding_iff {bytes : Bytes} : IsEncoding bytes ↔ ∃ c, String.utf8EncodeChar c = bytes := by
  constructor
  · exact exists_utf8EncodeChar
  · rintro ⟨c, rfl⟩
    exact isEncoding_utf8EncodeChar c

/-! ## Bytes that begin a character -/

def Begins (bytes : Bytes) : Prop :=
  ∃ c, bytes <+: String.utf8EncodeChar c

theorem begins_iff {bytes : Bytes} : Begins bytes ↔ ∃ more, IsEncoding (bytes ++ more) := by
  constructor
  · rintro ⟨c, more, hmore⟩
    exact ⟨more, isEncoding_iff.mpr ⟨c, hmore.symm⟩⟩
  · rintro ⟨more, hmore⟩
    obtain ⟨c, hc⟩ := isEncoding_iff.mp hmore
    exact ⟨c, more, hc.symm⟩

theorem Begins.of_append {bytes more : Bytes} (h : Begins (bytes ++ more)) : Begins bytes := by
  obtain ⟨c, hc⟩ := h
  exact ⟨c, (List.prefix_append bytes more).trans hc⟩

def Pending.Finish (p : Pending) : Bytes → Prop
  | [] => False
  | b :: tail => (p.low ≤ b ∧ b ≤ p.high) ∧ tail.length + 1 = p.owed ∧ ∀ x ∈ tail, IsTail x

theorem Pending.finish_cons {p : Pending} {b : UInt8} {tail : Bytes} : p.Finish (b :: tail) ↔
    (p.low ≤ b ∧ b ≤ p.high) ∧ tail.length + 1 = p.owed ∧ ∀ x ∈ tail, IsTail x :=
  Iff.rfl

/-- What is pending once the bytes of an unfinished character have been met. -/
structure Awaits (used : Bytes) (p : Pending) : Prop where
  used_ne_nil : used ≠ []
  owed : 1 ≤ p.owed
  bounds : p.low ≤ p.high
  finish (more : Bytes) : IsEncoding (used ++ more) ↔ p.Finish more
  pieces (more : Bytes) : pieces none (used ++ more) = pieces (some p) more

section
variable {b : UInt8}

theorem isEncoding_cons {more : Bytes} : IsEncoding (b :: more) ↔
    b < 0x80 ∧ more = [] ∨
    (0xC2 ≤ b ∧ b < 0xE0) ∧ Pending.Finish ⟨1, 0x80, 0xBF, b.toNat - 0xC0⟩ more ∨
    (0xE0 ≤ b ∧ b < 0xF0) ∧ Pending.Finish ⟨2, if b = 0xE0 then 0xA0 else 0x80,
      if b = 0xED then 0x9F else 0xBF, b.toNat - 0xE0⟩ more ∨
    (0xF0 ≤ b ∧ b < 0xF5) ∧ Pending.Finish ⟨3, if b = 0xF0 then 0x90 else 0x80,
      if b = 0xF4 then 0x8F else 0xBF, b.toNat - 0xF0⟩ more := by
  constructor
  · intro h
    cases h with
    | one h => exact .inl ⟨h, rfl⟩
    | two hl hh h₁ => exact .inr (.inl ⟨⟨hl, hh⟩, h₁, rfl, by simp⟩)
    | three hl hh h₁ h₂ h₃ => exact .inr (.inr (.inl ⟨⟨hl, hh⟩, ⟨h₁, h₂⟩, rfl, by simpa using h₃⟩))
    | four hl hh h₁ h₂ h₃ h₄ => exact .inr (.inr (.inr ⟨⟨hl, hh⟩, ⟨h₁, h₂⟩, rfl, by simpa using ⟨h₃, h₄⟩⟩))
  · rintro (⟨h, rfl⟩ | ⟨⟨hl, hh⟩, h⟩ | ⟨⟨hl, hh⟩, h⟩ | ⟨⟨hl, hh⟩, h⟩)
    · exact .one h
    all_goals
      cases more with
      | nil => cases h
      | cons b₁ tail => ?_
      obtain ⟨⟨h₁, h₂⟩, hlen, htail⟩ := h
      have hlen := Nat.succ.inj hlen
    · obtain rfl := List.length_eq_zero_iff.mp hlen
      exact .two hl hh ⟨h₁, h₂⟩
    · obtain ⟨x, rfl⟩ := List.length_eq_one_iff.mp hlen
      exact .three hl hh h₁ h₂ (htail x (by simp))
    · obtain ⟨x, y, rfl⟩ := List.length_eq_two.mp hlen
      exact .four hl hh h₁ h₂ (htail x (by simp)) (htail y (by simp))

theorem awaits_first {p : Pending} (h : first b = ([], some p)) (howed : 1 ≤ p.owed) (hbounds : p.low ≤ p.high)
    (hfinish : ∀ more, IsEncoding (b :: more) ↔ p.Finish more) : Awaits [b] p where
  used_ne_nil := List.cons_ne_nil b []
  owed := howed
  bounds := hbounds
  finish := hfinish
  pieces more := by
    rw [List.singleton_append, pieces_cons, step, h]
    rfl

theorem not_begins_singleton (h : ∀ more, ¬ IsEncoding (b :: more)) : ¬ Begins [b] := by
  rw [begins_iff]
  rintro ⟨more, hmore⟩
  exact h more hmore

/-- A byte between characters is one, begins none, or leaves one pending. -/
theorem first_cases (b : UInt8) :
    (∀ more, IsEncoding (b :: more) ↔ more = []) ∨ first b = ([none], none) ∧ ¬ Begins [b] ∨
      ∃ p, first b = ([], some p) ∧ Awaits [b] p := by
  by_cases h₁ : b < 0x80
  · refine .inl fun more => ?_
    rw [isEncoding_cons]
    grind
  by_cases h₂ : b < 0xC2
  · refine .inr (.inl ⟨by simp [first, h₁, h₂], not_begins_singleton fun more => ?_⟩)
    rw [isEncoding_cons]
    grind
  by_cases h₃ : b < 0xE0
  · have hfirst : first b = ([], some ⟨1, 0x80, 0xBF, b.toNat - 0xC0⟩) := by simp [first, h₁, h₂, h₃]
    refine .inr (.inr ⟨_, hfirst, awaits_first hfirst (Nat.le_refl 1) (show (0x80 : UInt8) ≤ 0xBF by decide) ?_⟩)
    intro more
    rw [isEncoding_cons]
    grind
  by_cases h₄ : b < 0xF0
  · have hfirst : first b = ([], some ⟨2, if b = 0xE0 then 0xA0 else 0x80, if b = 0xED then 0x9F else 0xBF,
        b.toNat - 0xE0⟩) := by simp [first, h₁, h₂, h₃, h₄]
    refine .inr (.inr ⟨_, hfirst, awaits_first hfirst (Nat.le_add_left 1 1) (by grind) ?_⟩)
    intro more
    rw [isEncoding_cons]
    grind
  by_cases h₅ : b < 0xF5
  · have hfirst : first b = ([], some ⟨3, if b = 0xF0 then 0x90 else 0x80, if b = 0xF4 then 0x8F else 0xBF,
        b.toNat - 0xF0⟩) := by simp [first, h₁, h₂, h₃, h₄, h₅]
    refine .inr (.inr ⟨_, hfirst, awaits_first hfirst (Nat.le_add_left 1 2) (by grind) ?_⟩)
    intro more
    rw [isEncoding_cons]
    grind
  refine .inr (.inl ⟨by simp [first, h₁, h₂, h₃, h₄, h₅], not_begins_singleton fun more => ?_⟩)
  rw [isEncoding_cons]
  grind

end

namespace Awaits

variable {used : Bytes} {p : Pending} {b : UInt8}

theorem not_isEncoding (h : Awaits used p) : ¬ IsEncoding used := by
  intro henc
  rw [← List.append_nil used, h.finish] at henc
  cases henc

theorem begins_append (h : Awaits used p) : Begins (used ++ [b]) ↔ p.low ≤ b ∧ b ≤ p.high := by
  rw [begins_iff]
  simp only [List.append_assoc, List.singleton_append, h.finish]
  constructor
  · rintro ⟨more, hrange, -⟩
    exact hrange
  · intro hrange
    refine ⟨List.replicate (p.owed - 1) 0x80, hrange, ?_, ?_⟩
    · have := h.owed
      rw [List.length_replicate]
      omega
    · intro x hx
      rw [List.eq_of_mem_replicate hx, isTail_iff]
      decide

theorem begins (h : Awaits used p) : Begins used :=
  (h.begins_append.mpr ⟨UInt8.le_refl p.low, h.bounds⟩).of_append

theorem last (h : Awaits used p) (hb : p.low ≤ b ∧ b ≤ p.high) (howed : p.owed ≤ 1) : IsEncoding (used ++ [b]) := by
  have := h.owed
  rw [h.finish]
  exact ⟨hb, by simp; omega, by simp⟩

theorem more (h : Awaits used p) (hb : p.low ≤ b ∧ b ≤ p.high) (howed : ¬ p.owed ≤ 1) :
    Awaits (used ++ [b]) ⟨p.owed - 1, 0x80, 0xBF, 64 * p.code + (b.toNat - 0x80)⟩ where
  used_ne_nil := by simp
  owed := by dsimp only; omega
  bounds := by dsimp only; decide
  finish more := by
    rw [List.append_assoc, List.singleton_append, h.finish, Pending.finish_cons]
    cases more with
    | nil =>
      have hlen : ([] : Bytes).length + 1 ≠ p.owed := fun hlen => howed (Nat.le_of_eq hlen.symm)
      exact ⟨fun hmore => hlen hmore.2.1, False.elim⟩
    | cons x more =>
      have hlen : (x :: more).length + 1 = p.owed ↔ more.length + 1 = p.owed - 1 := by
        rw [List.length_cons]
        omega
      rw [Pending.finish_cons, List.forall_mem_cons, hlen]
      exact ⟨fun ⟨_, hlen, hx, hmore⟩ => ⟨hx, hlen, hmore⟩, fun ⟨hx, hlen, hmore⟩ => ⟨hb, hlen, hx, hmore⟩⟩
  pieces more := by
    rw [List.append_assoc, List.singleton_append, h.pieces, pieces_cons]
    unfold step next
    dsimp only
    rw [if_pos hb, if_neg howed]
    rfl

theorem broken (h : Awaits used p) {rest : Bytes} (hrest : ∀ b ∈ rest.head?, ¬ Begins (used ++ [b])) :
    Utf8.pieces none (used ++ rest) = none :: Utf8.pieces none rest := by
  rw [h.pieces]
  cases rest with
  | nil => rfl
  | cons b rest =>
    have hb := hrest b rfl
    rw [h.begins_append] at hb
    rw [pieces_cons, pieces_cons]
    unfold step next
    dsimp only
    rw [if_neg hb]
    rfl

theorem append : ∀ {p : Pending} {used : Bytes} (more : Bytes), Awaits used p → Begins (used ++ more) →
    ¬ IsEncoding (used ++ more) → ∃ q, Awaits (used ++ more) q
  | p, used, [], h, _, _ => ⟨p, by rwa [List.append_nil]⟩
  | p, used, b :: more, h, hbegins, hpart => by
    rw [List.append_cons] at hbegins hpart ⊢
    have hb := h.begins_append.mp hbegins.of_append
    by_cases howed : p.owed ≤ 1
    · -- the byte is the last one, so that nothing can follow it
      obtain ⟨after, hafter⟩ := begins_iff.mp hbegins
      rw [List.append_assoc, List.append_assoc, List.singleton_append, h.finish, Pending.finish_cons,
        List.length_append] at hafter
      have hnil : more = [] := List.length_eq_zero_iff.mp (by omega)
      subst hnil
      rw [List.append_nil] at hpart
      exact absurd (h.last hb howed) hpart
    · exact (h.more hb howed).append more hbegins hpart

end Awaits

theorem exists_awaits {bytes : Bytes} (hne : bytes ≠ []) (hbegins : Begins bytes) (hpart : ¬ IsEncoding bytes) :
    ∃ p, Awaits bytes p := by
  cases bytes with
  | nil => exact absurd rfl hne
  | cons b more =>
    rcases first_cases b with hchar | ⟨-, hstray⟩ | ⟨p, -, hp⟩
    · obtain ⟨after, hafter⟩ := begins_iff.mp hbegins
      rw [List.cons_append, hchar] at hafter
      rw [hchar] at hpart
      exact absurd (List.append_eq_nil_iff.mp hafter).1 hpart
    · exact absurd (Begins.of_append (show Begins ([b] ++ more) from hbegins)) hstray
    · exact hp.append more hbegins hpart

/-! ## What is replaced -/

/-- The bytes of one replacement, ahead of the rest: a byte that begins no character, or a longest run that begins one
and leaves it unfinished. -/
inductive Broken (rest : Bytes) : Bytes → Prop
  | stray {b : UInt8} : ¬ Begins [b] → Broken rest [b]
  | cut {bytes : Bytes} : bytes ≠ [] → Begins bytes → (∀ c, String.utf8EncodeChar c ≠ bytes) →
      (∀ b ∈ rest.head?, ¬ Begins (bytes ++ [b])) → Broken rest bytes

/-- The text that bytes stand for, with one U+FFFD for what is broken. -/
inductive Decodes : Bytes → Text → Prop
  | nil : Decodes [] []
  | char {rest : Bytes} {t : Text} (c : Char) : Decodes rest t → Decodes (String.utf8EncodeChar c ++ rest) (c :: t)
  | broken {bytes rest : Bytes} {t : Text} : Broken rest bytes → Decodes rest t →
      Decodes (bytes ++ rest) ('\uFFFD' :: t)

theorem Awaits.cut {used rest : Bytes} {p : Pending} (h : Awaits used p)
    (hrest : ∀ b ∈ rest.head?, ¬ Begins (used ++ [b])) : Broken rest used := by
  refine .cut h.used_ne_nil h.begins (fun c hc => ?_) hrest
  exact h.not_isEncoding (isEncoding_iff.mpr ⟨c, hc⟩)

theorem pieces_broken {bytes rest : Bytes} (h : Broken rest bytes) :
    pieces none (bytes ++ rest) = none :: pieces none rest := by
  cases h with
  | @stray b hstray =>
    rcases first_cases b with hchar | ⟨hfirst, -⟩ | ⟨p, -, hp⟩
    · exact absurd (begins_iff.mpr ⟨[], (hchar []).mpr rfl⟩) hstray
    · rw [List.singleton_append, pieces_cons, step, hfirst]
      rfl
    · exact absurd hp.begins hstray
  | cut hne hbegins hpart hrest =>
    obtain ⟨p, hp⟩ := exists_awaits hne hbegins fun henc => by
      obtain ⟨c, hc⟩ := isEncoding_iff.mp henc
      exact hpart c hc
    exact hp.broken hrest

theorem decodeLossy_of_decodes {bytes : Bytes} {t : Text} (h : Decodes bytes t) : decodeLossy bytes = t := by
  unfold decodeLossy
  induction h with
  | nil => rfl
  | char c _ ih => rw [pieces_utf8EncodeChar, List.map_cons, ih]; rfl
  | broken hbroken _ ih => rw [pieces_broken hbroken, List.map_cons, ih]; rfl

theorem exists_decodes (bytes : Bytes) :
    (∃ t, Decodes bytes t) ∧ ∀ {used : Bytes} {p : Pending}, Awaits used p → ∃ t, Decodes (used ++ bytes) t := by
  induction bytes with
  | nil =>
    refine ⟨⟨[], .nil⟩, fun {used p} hp => ⟨['\uFFFD'], .broken (hp.cut fun b hb => ?_) .nil⟩⟩
    cases hb
  | cons b bytes ih =>
    -- a byte that breaks a character off is read again between characters, so that both halves go through together
    obtain ⟨⟨t, ht⟩, hinside⟩ := ih
    have hbetween : ∃ t, Decodes (b :: bytes) t := by
      rcases first_cases b with hchar | ⟨-, hstray⟩ | ⟨p, -, hp⟩
      · obtain ⟨c, hc⟩ := isEncoding_iff.mp ((hchar []).mpr rfl)
        exact ⟨c :: t, by rw [← List.singleton_append, ← hc]; exact .char c ht⟩
      · exact ⟨'\uFFFD' :: t, .broken (.stray hstray) ht⟩
      · exact hinside hp
    refine ⟨hbetween, fun {used p} hp => ?_⟩
    by_cases hb : p.low ≤ b ∧ b ≤ p.high
    · rw [List.append_cons]
      by_cases howed : p.owed ≤ 1
      · obtain ⟨c, hc⟩ := isEncoding_iff.mp (hp.last hb howed)
        exact ⟨c :: t, by rw [← hc]; exact .char c ht⟩
      · exact hinside (hp.more hb howed)
    · obtain ⟨t, ht⟩ := hbetween
      refine ⟨'\uFFFD' :: t, .broken (hp.cut fun x hx => ?_) ht⟩
      obtain rfl := Option.some.inj hx
      rwa [hp.begins_append]

theorem decodes_iff {bytes : Bytes} {t : Text} : Decodes bytes t ↔ decodeLossy bytes = t := by
  constructor
  · exact decodeLossy_of_decodes
  · rintro rfl
    obtain ⟨t, ht⟩ := (exists_decodes bytes).1
    rwa [decodeLossy_of_decodes ht]

-- two bytes of a character of three, a character, and the lead of a surrogate with the byte that rules it out
example : decodeLossy [0xE2, 0x82, 0x41, 0xED, 0xA0] = ['\uFFFD', 'A', '\uFFFD', '\uFFFD'] := by
  decide

end ElmImports.Utf8
