import ElmImports.Text.Blank

/-!
# UTF-8

Bytes are decoded one at a time. Inside a character of several bytes the decoder keeps how many bytes
are owed and the range the next one must lie in, so that overlong forms, surrogates and values above
U+10FFFF are met at the first byte that rules them out. A longest run of bytes that begins a character
without finishing it, or a byte that begins none, is one broken piece.
-/

namespace ElmImports

abbrev Bytes := List UInt8

namespace Utf8

def encode (t : Text) : Bytes :=
  t.flatMap String.utf8EncodeChar

structure Pending where
  owed : Nat
  low : UInt8
  high : UInt8
  code : Nat

/-- The decoder's answer to one byte: the pieces it completes (`none` for a broken one) and what is pending after it. -/
abbrev Step := List (Option Char) × Option Pending

def first (b : UInt8) : Step :=
  if b < 0x80 then ([some (Char.ofNat b.toNat)], none)
  else if b < 0xC2 then ([none], none)
  else if b < 0xE0 then ([], some ⟨1, 0x80, 0xBF, b.toNat - 0xC0⟩)
  else if b < 0xF0 then
    ([], some ⟨2, if b = 0xE0 then 0xA0 else 0x80, if b = 0xED then 0x9F else 0xBF, b.toNat - 0xE0⟩)
  else if b < 0xF5 then
    ([], some ⟨3, if b = 0xF0 then 0x90 else 0x80, if b = 0xF4 then 0x8F else 0xBF, b.toNat - 0xF0⟩)
  else ([none], none)

/-- A byte met inside a character. One that does not belong to it breaks it and is met again between characters. -/
def next (p : Pending) (b : UInt8) : Step :=
  if p.low ≤ b ∧ b ≤ p.high then
    let code := 64 * p.code + (b.toNat - 0x80)
    if p.owed ≤ 1 then ([some (Char.ofNat code)], none) else ([], some ⟨p.owed - 1, 0x80, 0xBF, code⟩)
  else (none :: (first b).1, (first b).2)

def step : Option Pending → UInt8 → Step
  | none => first
  | some p => next p

def pieces : Option Pending → Bytes → List (Option Char)
  | none, [] => []
  | some _, [] => [none]
  | pending, b :: bs => (step pending b).1 ++ pieces (step pending b).2 bs

def decodeLossy (bs : Bytes) : Text :=
  (pieces none bs).map (·.getD '\uFFFD')

def decode? (bs : Bytes) : Option Text :=
  (pieces none bs).mapM id

/-! ## Decoding with and without loss -/

theorem decodeLossy_of_decode? {bs : Bytes} {t : Text} (h : decode? bs = some t) : decodeLossy bs = t := by
  unfold decode? at h
  unfold decodeLossy
  generalize pieces none bs = ps at h ⊢
  induction ps generalizing t with
  | nil => simpa using h
  | cons p ps ih =>
    cases p with
    | none => simp at h
    | some c =>
      simp only [List.mapM_cons, id_eq, Option.pure_def, Option.bind_eq_bind, Option.bind_eq_some_iff] at h
      obtain ⟨_, hc, rest, hrest, ht⟩ := h
      cases hc
      cases ht
      simp [ih hrest]

end Utf8

end ElmImports
