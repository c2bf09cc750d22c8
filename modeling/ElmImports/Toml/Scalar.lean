import ElmImports.Json.Token
import ElmImports.Text.Decimal
import ElmImports.Toml.Value

/-!
# TOML numbers, booleans and dates

A scalar without quotes is a run of letters, digits, signs, points, colons and underscores, read as a whole.
An underscore must stand between two digits. Integers must fit in 64 bits with a sign, and a number with a
point that is too large is refused unless it is negative.
-/

namespace ElmImports.Toml

/-! ## Integers -/

def isDigitRun (isDigit : Char → Bool) : Text → Bool
  | [] => false
  | [c] => isDigit c
  | c :: '_' :: rest => isDigit c && isDigitRun isDigit rest
  | c :: rest => isDigit c && isDigitRun isDigit rest

/-- A decimal integer without its sign has no leading zero. -/
def isWhole (t : Text) : Bool :=
  t == ['0'] || (t.head? != some '0' && isDigitRun Char.isDigit t)

def signed (t : Text) : Bool × Text :=
  match t with
  | '-' :: rest => (true, rest)
  | '+' :: rest => (false, rest)
  | _ => (false, t)

def magnitude (base : Nat) (digits : Text) : Nat :=
  digits.foldl (fun n c => match Json.hexDigit? c with
    | some d => base * n + d
    | none => n) 0

def greatestInteger : Nat := 0x7FFF_FFFF_FFFF_FFFF

def based? (base : Nat) (isDigit : Char → Bool) (digits : Text) : Option Value :=
  if isDigitRun isDigit digits ∧ magnitude base digits ≤ greatestInteger then
    some (.integer (magnitude base digits))
  else none

def decimalInteger? (t : Text) : Option Value :=
  let (negative, digits) := signed t
  let n := magnitude 10 digits
  if ! isWhole digits then none
  else if negative then if n ≤ greatestInteger + 1 then some (.integer (-n)) else none
  else if n ≤ greatestInteger then some (.integer n) else none

def integer? : Text → Option Value
  | '0' :: 'x' :: digits => based? 16 (fun c => (Json.hexDigit? c).isSome) digits
  | '0' :: 'o' :: digits => based? 8 (fun c => '0' ≤ c && c ≤ '7') digits
  | '0' :: 'b' :: digits => based? 2 (fun c => c == '0' || c == '1') digits
  | t => decimalInteger? t

/-! ## Numbers with a point -/

/-- `n · 10 ^ e` is nearer to a power that no double holds than to the greatest double. -/
def isTooLarge (n : Nat) (e : Int) : Bool :=
  let bound := Nat.pow 2 1024 - Nat.pow 2 970
  let digits : Int := (Nat.toDigits 10 n).length
  if n = 0 ∨ digits + e < 308 then false
  else if digits + e > 310 then true
  else if 0 ≤ e then n * Nat.pow 10 e.toNat ≥ bound else n ≥ bound * Nat.pow 10 (-e).toNat

/-- The exponent that stands behind the digits; `none` if something else does. -/
def exponent? : Text → Option Int
  | [] => some 0
  | c :: t =>
    let (negative, digits) := signed t
    if (c = 'e' ∨ c = 'E') ∧ isDigitRun Char.isDigit digits then
      let n : Int := magnitude 10 digits
      some (if negative then -n else n)
    else none

def isDigitOrUnderscore (c : Char) : Bool :=
  c.isDigit || c == '_'

def float? (t : Text) : Option Value :=
  let (negative, t) := signed t
  if t = "inf".toList ∨ t = "nan".toList then some .float
  else
    let (whole, rest) := t.span isDigitOrUnderscore
    let (fraction, rest, hasPoint) := match rest with
      | '.' :: rest => let (fraction, rest) := rest.span isDigitOrUnderscore; (fraction, rest, true)
      | _ => ([], rest, false)
    match exponent? rest with
    | none => none
    | some e =>
      let places := fraction.countP Char.isDigit
      if ! isWhole whole || (hasPoint && ! isDigitRun Char.isDigit fraction) || (! hasPoint && rest.isEmpty) then none
      else if ! negative && isTooLarge (magnitude 10 (whole ++ fraction)) (e - places) then none
      else some .float

/-! ## Dates and times -/

def twoDigits? : Text → Option (Nat × Text)
  | a :: b :: rest => if a.isDigit ∧ b.isDigit then some (Decimal.value [a, b], rest) else none
  | _ => none

def field? (low high : Nat) (t : Text) : Option (Nat × Text) :=
  (twoDigits? t).filter fun (n, _) => low ≤ n && n ≤ high

def after? (c : Char) : Text → Option Text
  | d :: rest => if c = d then some rest else none
  | [] => none

def daysIn (year month : Nat) : Nat :=
  let leap := year % 4 == 0 && (year % 100 != 0 || year % 400 == 0)
  if month = 2 then if leap then 29 else 28
  else if month = 4 ∨ month = 6 ∨ month = 9 ∨ month = 11 then 30
  else 31

def afterDate? (t : Text) : Option Text := do
  let (century, t) ← twoDigits? t
  let (year, t) ← twoDigits? t
  let (month, t) ← field? 1 12 (← after? '-' t)
  let (_, t) ← field? 1 (daysIn (100 * century + year) month) (← after? '-' t)
  pure t

def afterTime? (t : Text) : Option Text := do
  let (_, t) ← field? 0 23 t
  let (_, t) ← field? 0 59 (← after? ':' t)
  let (_, t) ← field? 0 60 (← after? ':' t)
  match t with
  | '.' :: t => Json.afterDigits? t
  | _ => pure t

def isOffset? (t : Text) : Bool :=
  match t with
  | [] | ['Z'] | ['z'] => true
  | sign :: t => (sign == '+' || sign == '-') && Option.isSome do
    let (_, t) ← field? 0 23 t
    let (_, t) ← field? 0 59 (← after? ':' t)
    if t.isEmpty then some () else none

def dateTime? (t : Text) : Option Value :=
  match afterDate? t with
  | some [] => some .dateTime
  | some (c :: t) =>
    if (c = 'T' ∨ c = 't') ∧ (afterTime? t).any isOffset? then some .dateTime else none
  | none => if (afterTime? t).any List.isEmpty then some .dateTime else none

/-! ## Scalars -/

def isScalarChar (c : Char) : Bool :=
  c.isAlphanum || c == '+' || c == '-' || c == '.' || c == ':' || c == '_'

def ofRun? (t : Text) : Option Value :=
  if t = "true".toList then some (.boolean true)
  else if t = "false".toList then some (.boolean false)
  else (dateTime? t).or ((float? t).or (integer? t))

/-- A scalar without quotes, and what follows it. A date may be followed by a space and a time. -/
def scalarValue? (t : Text) : Option (Value × Text) :=
  let (run, rest) := t.span isScalarChar
  match rest with
  | ' ' :: c :: more =>
    if afterDate? run = some [] ∧ c.isDigit then
      let (time, rest) := (c :: more).span isScalarChar
      (dateTime? (run ++ 'T' :: time)).map (·, rest)
    else (ofRun? run).map (·, rest)
  | _ => (ofRun? run).map (·, rest)

end ElmImports.Toml
