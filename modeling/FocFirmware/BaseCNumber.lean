import FocFirmware.BaseCString
import Mathlib.Algebra.Order.Field.Rat

/-! The number conversions of the C library, in its C locale. `strtol` and `strtof` skip white space and read
the longest text of the expected form; where there is none they return zero. What a text denotes is kept
exactly, and rounding it to the float type is left to the caller. -/

namespace FocFirmware.CNumbers

open CStrings

def isSpace (b : UInt8) : Bool := b = 32 ∨ 9 ≤ b ∧ b ≤ 13

def skipSpace (s : List UInt8) : List UInt8 := s.dropWhile isSpace

/-- An optional sign: whether it is a minus, and what follows. -/
def takeSign : List UInt8 → Bool × List UInt8
  | 45 :: s => (true, s)
  | 43 :: s => (false, s)
  | s => (false, s)

def lower (b : UInt8) : UInt8 := if 65 ≤ b ∧ b ≤ 90 then b + 32 else b

def digitIn (base : ℕ) (b : UInt8) : Option ℕ :=
  let c := lower b
  let d := if 48 ≤ c ∧ c ≤ 57 then c.toNat - 48 else if 97 ≤ c ∧ c ≤ 122 then c.toNat - 87 else base
  if d < base then some d else none

/-- The digits at the front, and what follows them. -/
def takeDigits (base : ℕ) : List UInt8 → List ℕ × List UInt8
  | [] => ([], [])
  | b :: s =>
      match digitIn base b with
      | none => ([], b :: s)
      | some d =>
          let (digits, rest) := takeDigits base s
          (d :: digits, rest)

def digitsValue (base : ℕ) (digits : List ℕ) : ℕ := digits.foldl (fun v d => base * v + d) 0

def signed (negative : Bool) (n : ℕ) : ℤ := if negative then -n else n

/-- The decimal integer a text begins with. -/
def integerAt (s : List UInt8) : Option ℤ :=
  let (negative, rest) := takeSign (skipSpace s)
  match (takeDigits 10 rest).1 with
  | [] => none
  | digits => some (signed negative (digitsValue 10 digits))

/-- `strtol` to base 10, with a `long` of 32 bits. -/
def strtol (s : List UInt8) : ℤ :=
  match integerAt s with
  | none => 0
  | some z => max (-2147483648) (min z 2147483647)

/-- A number as written, before it is rounded; the text in brackets after a NaN is kept. -/
inductive Magnitude where
  | finite (value : ℚ)
  | infinite
  | nan (payload : List UInt8)
  deriving DecidableEq

structure CNumber where
  negative : Bool
  magnitude : Magnitude
  deriving DecidableEq

/-- Digits with at most one point among them: their value without the point, how many follow it, the rest. -/
def mantissaAt (base : ℕ) (s : List UInt8) : Option (ℕ × ℕ × List UInt8) :=
  let (whole, rest) := takeDigits base s
  let (fraction, rest) :=
    match rest with
    | 46 :: rest' => takeDigits base rest'
    | _ => ([], rest)
  if whole ++ fraction = [] then none else some (digitsValue base (whole ++ fraction), fraction.length, rest)

/-- The exponent behind its mark; zero where mark or digits are missing. -/
def exponentAt (mark : UInt8) : List UInt8 → ℤ
  | [] => 0
  | b :: s =>
      if lower b = mark then
        let (negative, rest) := takeSign s
        signed negative (digitsValue 10 (takeDigits 10 rest).1)
      else 0

def decimalAt (s : List UInt8) : Option ℚ :=
  (mantissaAt 10 s).map fun (m, scale, rest) => m * (10 : ℚ) ^ (exponentAt 101 rest - scale)

/-- `0x`, digits to base 16, and a binary exponent. -/
def hexadecimalAt : List UInt8 → Option ℚ
  | 48 :: x :: s =>
      if lower x = 120 then
        (mantissaAt 16 s).map fun (m, scale, rest) => m * (2 : ℚ) ^ (exponentAt 112 rest - 4 * scale)
      else none
  | _ => none

/-- The bracketed text after `NAN`. -/
def payloadAt : List UInt8 → List UInt8
  | 40 :: s =>
      let chars := s.takeWhile fun b => (digitIn 36 b).isSome ∨ b = 95
      if (s.drop chars.length).head? = some 41 then chars else []
  | _ => []

def magnitudeAt (s : List UInt8) : Option Magnitude :=
  if (s.take 3).map lower = ascii "inf" then some .infinite
  else if (s.take 3).map lower = ascii "nan" then some (.nan (payloadAt (s.drop 3)))
  else ((hexadecimalAt s).or (decimalAt s)).map .finite

/-- The floating-point number a text begins with. -/
def numberAt (s : List UInt8) : Option CNumber :=
  let (negative, rest) := takeSign (skipSpace s)
  (magnitudeAt rest).map fun m => ⟨negative, m⟩

/-- `strtof`, for floats that a number is rounded to by `round`. -/
def strtof {F : Type} (round : CNumber → F) (s : List UInt8) : F :=
  match numberAt s with
  | none => round ⟨false, .finite 0⟩
  | some x => round x

theorem strtol_of_mem {s : List UInt8} {z : ℤ} (h : integerAt s = some z) (hlow : -2147483648 ≤ z)
    (hhigh : z ≤ 2147483647) : strtol s = z := by
  rw [strtol, h]
  simp only [min_eq_left hhigh, max_eq_right hlow]

theorem strtof_of_number {F : Type} (round : CNumber → F) {s : List UInt8} {x : CNumber} (h : numberAt s = some x) :
    strtof round s = round x := by
  rw [strtof, h]

example : integerAt (ascii "\t -12ab") = some (-12) := by decide

example : numberAt (ascii " +1.25e1;") = some ⟨false, .finite (25 / 2)⟩ := by decide +kernel

example : numberAt (ascii "-0x1.8p1") = some ⟨true, .finite 3⟩ := by decide +kernel

end FocFirmware.CNumbers
