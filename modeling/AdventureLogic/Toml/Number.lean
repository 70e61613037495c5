import AdventureLogic.Toml.Reading

/-!
# Numbers

An integer is written in decimal with or without a sign, or without a sign to
base 16, 8 or 2, and has to fit into 64 bits. Any other number has a fraction,
an exponent or both; it is kept as it is written, as digits and a power of ten.
It stands for a double, so a number past the largest double is refused. A
negative one past the smallest double is negative infinity. An exponent is read
up to a bound, past which its further digits do not count.

Key definitions: `readInteger`, `Decimal`, `Decimal.exceeds`, `readNumber`.
-/

namespace AdventureLogic
namespace Toml

/-! ### Integers -/

/-- Whether a number fits into 64 bits with a sign. -/
def fitsInteger (n : Int) : Bool := -0x8000000000000000 ≤ n && n < 0x8000000000000000

/-- Reads a decimal number with or without a sign, as the sign and the digits. -/
def readSigned (s : List Char) : Option (Reading (Bool × List Char) s) :=
  match sign? s with
  | some x => x.andThen fun t => (readDecimal t).map fun y => y.map (x.value, ·)
  | none => (readDecimal s).map fun y => y.map (false, ·)

/-- The number that digits stand for, unless even to base 2 they are too many for 64 bits. -/
def ofDigits? (base : Nat) (digits : List Char) : Option Nat :=
  let significant := digits.dropWhile (· = '0')
  if significant.length ≤ 64 then some (ofDigits base significant) else none

/-- Reads the digits of a natural number after the two characters that name its base. -/
def readBased (base : Nat) (s : List Char) : Option (Reading Int s) := do
  let digits ← readDigits base s
  let n ← ofDigits? base digits.value
  return digits.map fun _ => Int.ofNat n

/-- Reads an integer in decimal. -/
def readDecimalInteger (s : List Char) : Option (Reading Int s) := do
  let x ← readSigned s
  let n ← ofDigits? 10 x.value.2
  return x.map fun _ => if x.value.1 then -Int.ofNat n else Int.ofNat n

/-- Reads an integer, which may still be too large. -/
def readAnyInteger (s : List Char) : Option (Reading Int s) :=
  match s with
  | '0' :: 'x' :: rest =>
    (readBased 16 rest).map fun x => x.later.later
  | '0' :: 'o' :: rest =>
    (readBased 8 rest).map fun x => x.later.later
  | '0' :: 'b' :: rest =>
    (readBased 2 rest).map fun x => x.later.later
  | text => readDecimalInteger text

/-- Reads an integer that fits into 64 bits. -/
def readInteger (s : List Char) : Option (Reading Int s) :=
  (readAnyInteger s).filter fun x => fitsInteger x.value

/-! ### Other numbers -/

/-- A number with a fraction or an exponent, or one of the special values of a double. -/
inductive Decimal where
  /-- The number that the digits stand for times a power of ten, with a sign. -/
  | finite (negative : Bool) (digits : List Char) (exponent : Int)
  | infinite (negative : Bool)
  | undefined (negative : Bool)
  deriving DecidableEq, Inhabited

namespace Decimal

/-- The least number that is rounded up past the largest double: half a unit above it. -/
def doubleLimit : Nat := (1 <<< 1024) - (1 <<< 970)

/-- The number of decimal digits of `doubleLimit`. -/
def limitPlaces : Nat := 309

/-- Whether digits times a power of ten are rounded up past the largest double. The number of places
before the dot decides, unless it is that of the limit. Then the digits before the dot decide, since
the limit is a whole number. -/
def exceeds (digits : List Char) (exponent : Int) : Bool :=
  let significant := digits.dropWhile (· = '0')
  let places := significant.length + exponent
  if significant = [] ∨ places < limitPlaces then false
  else if limitPlaces < places then true
  else doubleLimit ≤ ofDigits 10 ((significant ++ List.replicate limitPlaces '0').take limitPlaces)

/-- The number that stands for a number as written, if there is one. -/
def ofParts? (negative : Bool) (digits : List Char) (exponent : Int) : Option Decimal :=
  if exceeds digits exponent then
    if negative then some (.infinite true) else none
  else some (.finite negative digits exponent)

end Decimal

/-- Reads a fraction: a dot and digits. -/
def readFraction (s : List Char) : Option (Reading (List Char) s) := do
  let dot ← expect '.' s
  dot.andThen (readDigits 10)

/-- Reads the mark of an exponent. -/
def exponentMark? (s : List Char) : Option (Reading Unit s) :=
  match s with
  | 'e' :: _ => some (.first ())
  | 'E' :: _ => some (.first ())
  | _ => none

/-- An exponent that is at least so large does not grow any more. -/
def exponentBound : Nat := 65536

/-- The exponent that digits stand for. They are taken one after the other, and those that follow
once the exponent has reached its bound do not count. -/
def exponentOf (digits : List Char) : Nat :=
  digits.foldl (fun n c => if n < exponentBound then 10 * n + digitValue c else n) 0

/-- Reads the digits of an exponent, with or without a sign. Zeros may stand in front. -/
def readPower (s : List Char) : Option (Reading Int s) :=
  match sign? s with
  | some x =>
    x.andThen fun t => (readDigits 10 t).map fun y =>
      y.map fun ds => if x.value then -Int.ofNat (exponentOf ds) else Int.ofNat (exponentOf ds)
  | none => (readDigits 10 s).map fun y => y.map fun ds => Int.ofNat (exponentOf ds)

/-- Reads an exponent. -/
def readExponent (s : List Char) : Option (Reading Int s) := do
  let mark ← exponentMark? s
  mark.andThen readPower

/-- Reads what follows the digits before the dot: a fraction, an exponent or both. -/
def readScale (s : List Char) : Option (Reading (List Char × Int) s) :=
  match readFraction s with
  | some fraction =>
    match readExponent fraction.rest with
    | some power =>
      some ((power.map (fraction.value, ·)).widen (Nat.le_of_lt fraction.shorter))
    | none => some (fraction.map (·, 0))
  | none => (readExponent s).map fun power => power.map ([], ·)

/-- Reads a number with a fraction or an exponent. -/
def readFinite (s : List Char) : Option (Reading Decimal s) := do
  let whole ← readSigned s
  let scale ← readScale whole.rest
  let number ← Decimal.ofParts? whole.value.1 (whole.value.2 ++ scale.value.1)
    (scale.value.2 - scale.value.1.length)
  return ⟨number, scale.rest, Nat.lt_trans scale.shorter whole.shorter⟩

/-- Reads the word for a special value. -/
def readSpecialWord (negative : Bool) (s : List Char) : Option (Reading Decimal s) :=
  match s with
  | 'i' :: 'n' :: 'f' :: rest =>
    some ⟨.infinite negative, rest, by simp only [List.length_cons]; omega⟩
  | 'n' :: 'a' :: 'n' :: rest =>
    some ⟨.undefined negative, rest, by simp only [List.length_cons]; omega⟩
  | _ => none

/-- Reads a special value, with or without a sign. -/
def readSpecial (s : List Char) : Option (Reading Decimal s) :=
  match sign? s with
  | some x => x.andThen (readSpecialWord x.value)
  | none => readSpecialWord false s

/-- Reads a number that is no integer. -/
def readNumber (s : List Char) : Option (Reading Decimal s) :=
  (readFinite s).orElse fun _ => readSpecial s

end Toml
end AdventureLogic
