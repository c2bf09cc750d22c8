import ElmImports.Proofs.Text.Utf8

/-!
# ASCII among arbitrary bytes

A byte below 0x80 is decoded as its character wherever it stands, also where it breaks off a character of several
bytes, and what stands ahead of it and behind it is decoded apart. No other byte has a part in a character below
0x80, so that an ASCII character occurs in decoded text only where its byte does.
-/

namespace ElmImports.Utf8

/-! ## What is pending -/

/-- A pending character takes no ASCII byte, and with the bytes it is owed it will be no ASCII character. -/
structure Pending.Sound (p : Pending) : Prop where
  low : 0x80 ≤ p.low.toNat
  value : 2 ≤ p.code ∨ 1 < p.owed ∧ 2 ≤ 64 * p.code + (p.low.toNat - 0x80)

section
variable {b : UInt8} {pending : Option Pending} {p : Pending}

theorem Pending.sound_of_code {owed code : Nat} {low high : UInt8} (hlow : 0x80 ≤ low.toNat)
    (hcode : 2 ≤ code ∨ 1 < owed ∧ 1 ≤ code) : Pending.Sound ⟨owed, low, high, code⟩ := by
  refine ⟨hlow, hcode.imp_right fun ⟨howed, hcode⟩ => ⟨howed, ?_⟩⟩
  dsimp only
  omega

/-- A first byte that leaves the code at zero is followed by one that keeps the character from being overlong. -/
theorem Pending.sound_of_lead {lead narrow high : UInt8} {owed : Nat} (hlead : lead.toNat ≤ b.toNat) (howed : 1 < owed)
    (hnarrow : 0x82 ≤ narrow.toNat) :
    Pending.Sound ⟨owed, if b = lead then narrow else 0x80, high, b.toNat - lead.toNat⟩ := by
  by_cases hb : b = lead
  · rw [if_pos hb]
    refine ⟨Nat.le_trans (by decide) hnarrow, .inr ⟨howed, ?_⟩⟩
    dsimp only
    omega
  · have hne : lead.toNat ≠ b.toNat := fun he => hb (UInt8.toNat_inj.mp he.symm)
    rw [if_neg hb]
    exact sound_of_code (Nat.le_refl _) (.inr ⟨howed, by omega⟩)

theorem sound_first (h : (first b).2 = some p) : p.Sound := by
  have hle {n : UInt8} (hn : ¬ b < n) : n.toNat ≤ b.toNat := by
    rwa [UInt8.lt_iff_toNat_lt, Nat.not_lt] at hn
  unfold first at h
  split at h
  · cases h
  split at h
  · cases h
  rename_i hc2
  split at h
  · cases h
    have hc2 : 0xC2 ≤ b.toNat := hle hc2
    exact Pending.sound_of_code (Nat.le_refl _) (.inl (by omega))
  rename_i he0
  split at h
  · cases h
    exact Pending.sound_of_lead (hle he0) (by decide) (by decide)
  rename_i hf0
  split at h
  · cases h
    exact Pending.sound_of_lead (hle hf0) (by decide) (by decide)
  · cases h

theorem Pending.Sound.code (hp : p.Sound) (hb : p.low ≤ b) : 2 ≤ 64 * p.code + (b.toNat - 0x80) := by
  have hlow : p.low.toNat ≤ b.toNat := UInt8.le_iff_toNat_le.mp hb
  have := hp.value
  omega

theorem sound_next {q : Pending} (hp : p.Sound) (h : (next p b).2 = some q) : q.Sound := by
  unfold next at h
  split at h
  · rename_i hb
    dsimp only at h
    split at h
    · cases h
    · cases h
      exact Pending.sound_of_code (Nat.le_refl _) (.inl (hp.code hb.1))
  · exact sound_first h

theorem sound_step (hpending : ∀ p ∈ pending, p.Sound) : ∀ p ∈ (step pending b).2, p.Sound := by
  intro q hq
  cases pending with
  | none => exact sound_first hq
  | some p => exact sound_next (hpending p rfl) hq

theorem sound_none : ∀ p ∈ (none : Option Pending), p.Sound := by
  intro p hp
  cases hp

/-! ## An ASCII byte -/

theorem first_ascii (hb : b.toNat < 0x80) : first b = ([some (Char.ofNat b.toNat)], none) :=
  if_pos (UInt8.lt_iff_toNat_lt.mpr hb)

theorem next_ascii (hp : p.Sound) (hb : b.toNat < 0x80) : next p b = ([none, some (Char.ofNat b.toNat)], none) := by
  have hout : ¬ (p.low ≤ b ∧ b ≤ p.high) := by
    rintro ⟨hl, -⟩
    have hl := UInt8.le_iff_toNat_le.mp hl
    have hlow := hp.low
    omega
  unfold next
  rw [if_neg hout, first_ascii hb]

theorem pieces_cons (pending : Option Pending) (b : UInt8) (bytes : Bytes) :
    pieces pending (b :: bytes) = (step pending b).1 ++ pieces (step pending b).2 bytes := by
  cases pending <;> rfl

theorem pieces_append_ascii (hb : b.toNat < 0x80) (rest : Bytes) : ∀ (bytes : Bytes) {pending : Option Pending},
    (∀ p ∈ pending, p.Sound) →
    pieces pending (bytes ++ b :: rest) = pieces pending bytes ++ some (Char.ofNat b.toNat) :: pieces none rest
  | [], none, _ => pieces_ascii hb
  | [], some p, h => by
    rw [List.nil_append, pieces_cons, step, next_ascii (h p rfl) hb]
    rfl
  | x :: bytes, pending, h => by
    rw [List.cons_append, pieces_cons, pieces_cons, pieces_append_ascii hb rest bytes (sound_step h),
      List.append_assoc]

theorem decodeLossy_append_ascii (hb : b.toNat < 0x80) (bytes rest : Bytes) :
    decodeLossy (bytes ++ b :: rest) = decodeLossy bytes ++ Char.ofNat b.toNat :: decodeLossy rest := by
  unfold decodeLossy
  rw [pieces_append_ascii hb rest bytes sound_none, List.map_append, List.map_cons]
  rfl

theorem decode?_append_ascii (hb : b.toNat < 0x80) (bytes rest : Bytes) :
    decode? (bytes ++ b :: rest) =
      (decode? bytes).bind fun s => (decode? rest).map fun t => s ++ Char.ofNat b.toNat :: t := by
  unfold decode?
  rw [pieces_append_ascii hb rest bytes sound_none, List.mapM_append, List.mapM_cons]
  cases (pieces none bytes).mapM id <;> cases (pieces none rest).mapM id <;> rfl

end

/-! ## Where an ASCII character comes from -/

theorem toNat_ofNat_of_ne_zero {n : Nat} (h : (Char.ofNat n).toNat ≠ 0) : (Char.ofNat n).toNat = n := by
  unfold Char.ofNat at h ⊢
  by_cases hvalid : n.isValidChar
  · rw [dif_pos hvalid]
    rfl
  · rw [dif_neg hvalid] at h
    exact absurd rfl h

section
variable {c : Char} (hc : 0 < c.toNat ∧ c.toNat < 0x80)
include hc

theorem mem_first {b : UInt8} (h : some c ∈ (first b).1) : b = UInt8.ofNat c.toNat := by
  by_cases hb : b.toNat < 0x80
  · rw [first_ascii hb, List.mem_singleton] at h
    obtain rfl := Option.some.inj h
    rw [toNat_ofNat_of_ne_zero (by omega), UInt8.ofNat_toNat]
  · have hnot : ¬ b < 0x80 := not_lt_of_le (Nat.le_of_not_lt hb) (Nat.le_refl _)
    unfold first at h
    rw [if_neg hnot] at h
    repeat' split at h
    all_goals simp at h

theorem mem_next {b : UInt8} {p : Pending} (hp : p.Sound) (h : some c ∈ (next p b).1) :
    b = UInt8.ofNat c.toNat := by
  unfold next at h
  split at h
  · dsimp only at h
    split at h
    · rename_i howed
      have hcode : 2 ≤ p.code := hp.value.resolve_right fun hmore => Nat.not_le_of_lt hmore.1 howed
      generalize hn : 64 * p.code + (b.toNat - 0x80) = n at h
      obtain rfl := Option.some.inj (List.mem_singleton.mp h)
      have hvalue := toNat_ofNat_of_ne_zero (Nat.ne_of_gt hc.1)
      omega
    · cases h
  · rcases List.mem_cons.mp h with h | h
    · cases h
    · exact mem_first hc h

/-- An ASCII character that is decoded, NUL apart, is one of the bytes. -/
theorem mem_pieces : ∀ {bytes : Bytes} {pending : Option Pending}, (∀ p ∈ pending, p.Sound) →
    some c ∈ pieces pending bytes → UInt8.ofNat c.toNat ∈ bytes
  | [], none, _, h => by cases h
  | [], some _, _, h => by cases List.mem_singleton.mp h
  | b :: bytes, pending, hpending, h => by
    rw [pieces_cons, List.mem_append] at h
    rcases h with h | h
    · have hb : b = UInt8.ofNat c.toNat := by
        cases pending with
        | none => exact mem_first hc h
        | some p => exact mem_next hc (hpending p rfl) h
      rw [hb]
      exact List.mem_cons_self
    · exact List.mem_cons_of_mem _ (mem_pieces (sound_step hpending) h)

theorem mem_decodeLossy {bytes : Bytes} (h : c ∈ decodeLossy bytes) : UInt8.ofNat c.toNat ∈ bytes := by
  obtain ⟨piece, hpiece, he⟩ := List.mem_map.mp h
  cases piece with
  | some d =>
    obtain rfl : d = c := he
    exact mem_pieces hc sound_none hpiece
  | none =>
    obtain rfl : '\uFFFD' = c := he
    exact absurd hc (by decide)

end

end ElmImports.Utf8
