import CodeAtlas.Text

namespace CodeAtlas.Text

/-- Letters of either case continue the digits from ten on. -/
def digitValue? (base : Nat) (b : UInt8) : Option Nat :=
  let value? :=
    if code '0' ≤ b ∧ b ≤ code '9' then some (b - code '0').toNat
    else if code 'a' ≤ b ∧ b ≤ code 'z' then some ((b - code 'a').toNat + 10)
    else if code 'A' ≤ b ∧ b ≤ code 'Z' then some ((b - code 'A').toNat + 10)
    else none
  value?.filter (· < base)

/-- A digit sequence read on from the value `n` of the digits before it. -/
def readDigits? (base : Nat) : Nat → Text → Option Nat
  | n, [] => some n
  | n, b :: t =>
    match digitValue? base b with
    | some d => readDigits? base (n * base + d) t
    | none => none

/-- Digits only, and at least one: no sign, no blank, no marker of the base. -/
def toNat? (base : Nat) (t : Text) : Option Nat :=
  if t = [] then none else readDigits? base 0 t

/-- A numeral below `limit`. -/
def toNatBelow? (limit base : Nat) (t : Text) : Option Nat := (toNat? base t).filter (· < limit)

/-- A numeral with an optional minus sign, whose value fits in two's complement of `bits` bits. -/
def toSigned? (bits base : Nat) (t : Text) : Option Int :=
  let half := 1 <<< (bits - 1)
  match prefixed? "-" t with
  | some digits => ((toNat? base digits).filter (· ≤ half)).map fun n => -(Int.ofNat n)
  | none => ((toNat? base t).filter (· < half)).map Int.ofNat

/-- The digit of a value below sixteen, letters in lower case. -/
def lowerDigit (d : Nat) : UInt8 :=
  if d < 10 then code '0' + UInt8.ofNat d else code 'a' + UInt8.ofNat (d - 10)

/-- The shortest numeral of a value; it has at least one digit. -/
def numeral (base n : Nat) : Text :=
  if _h : base < 2 ∨ n < base then [lowerDigit n]
  else numeral base (n / base) ++ [lowerDigit (n % base)]
termination_by n
decreasing_by exact Nat.div_lt_self (by omega) (by omega)

def decimal (n : Nat) : Text := numeral 10 n

def hex (n : Nat) : Text := numeral 16 n

/-- A hexadecimal numeral behind its marker. -/
def hex0x (n : Nat) : Text := "0x" ++ hex n

def signedDecimal (n : Int) : Text :=
  if n < 0 then "-" ++ decimal n.natAbs else decimal n.natAbs

def padLeft (width : Nat) (fill : UInt8) (t : Text) : Text :=
  List.replicate (width - t.length) fill ++ t

/-- The two digits of a byte. -/
def hexByte (b : UInt8) : Text := [lowerDigit (b.toNat / 16), lowerDigit (b.toNat % 16)]

end CodeAtlas.Text
