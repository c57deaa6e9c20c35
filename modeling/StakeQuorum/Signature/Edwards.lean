import StakeQuorum.Bytes

/-! # The Edwards curve of Ed25519

Points of `-x² + y² = 1 + d x² y²` over the integers modulo `2 ^ 255 - 19`, in extended
coordinates `(X : Y : Z : T)` with `x = X / Z`, `y = Y / Z` and `x y = T / Z`.
-/

namespace StakeQuorum.Edwards

def fieldPrime : Nat := (1 <<< 255) - 19

def groupOrder : Nat := (1 <<< 252) + 27742317777372353535851937790883648493

def mul (a b : Nat) : Nat := a * b % fieldPrime

def add (a b : Nat) : Nat := (a + b) % fieldPrime

def sub (a b : Nat) : Nat := (a + (fieldPrime - b % fieldPrime)) % fieldPrime

/-- The 256 lowest bits, the highest first. -/
def bits (n : Nat) : List Bool := (List.range 256).reverse.map n.testBit

/-- Powers by squaring, for exponents below `2 ^ 256`. -/
def pow (b e : Nat) : Nat :=
  (bits e).foldl (fun acc bit => if bit then mul (mul acc acc) b else mul acc acc) 1

def inverse (a : Nat) : Nat := pow a (fieldPrime - 2)

/-- The curve constant, `-121665 / 121666`. -/
def curveD : Nat := mul (sub 0 121665) (inverse 121666)

/-- A square root of `-1`. -/
def rootOfMinusOne : Nat := pow 2 ((fieldPrime - 1) / 4)

/-- A square root of `u / v`, if there is one. -/
def sqrtRatio? (u v : Nat) : Option Nat :=
  let v3 := mul (mul v v) v
  let v7 := mul (mul v3 v3) v
  let r := mul (mul u v3) (pow (mul u v7) ((fieldPrime - 5) / 8))
  let check := mul v (mul r r)
  if check = u % fieldPrime then some r
  else if check = sub 0 u then some (mul r rootOfMinusOne)
  else none

structure Point where
  x : Nat
  y : Nat
  z : Nat
  t : Nat
  deriving DecidableEq, Repr

namespace Point

def zero : Point := ⟨0, 1, 1, 0⟩

def ofAffine (x y : Nat) : Point := ⟨x, y, 1, mul x y⟩

/-- The sum of two points, by a law without exceptional cases. -/
protected def add (p q : Point) : Point :=
  let a := mul (sub p.y p.x) (sub q.y q.x)
  let b := mul (Edwards.add p.y p.x) (Edwards.add q.y q.x)
  let c := mul (mul (mul 2 curveD) p.t) q.t
  let d := mul (mul 2 p.z) q.z
  let e := sub b a
  let f := sub d c
  let g := Edwards.add d c
  let h := Edwards.add b a
  ⟨mul e f, mul g h, mul f g, mul e h⟩

def neg (p : Point) : Point := ⟨sub 0 p.x, p.y, p.z, sub 0 p.t⟩

/-- The multiple of a point by a number below `2 ^ 256`. -/
def smul (n : Nat) (p : Point) : Point :=
  (bits n).foldl (fun acc bit =>
    let twice := acc.add acc
    if bit then twice.add p else twice) zero

/-- Thirty-two bytes: `y`, with the lowest bit of `x` as the highest bit. -/
def encode (p : Point) : Bytes :=
  let zi := inverse p.z
  let x := mul p.x zi
  let y := mul p.y zi
  Bytes.littleEndian 32 (y + (x % 2) <<< 255)

/-- The point with an encoding. The coordinate `y` counts modulo the prime, and the sign of a zero
`x` is ignored. -/
def decode? (bs : Bytes) : Option Point := do
  let n := Bytes.ofLittleEndian bs
  let y := n % (1 <<< 255) % fieldPrime
  let y2 := mul y y
  let x ← sqrtRatio? (sub y2 1) (Edwards.add (mul curveD y2) 1)
  let x := if x % 2 = (n >>> 255) % 2 then x else sub 0 x
  return ofAffine x y

/-- The base point: `y = 4 / 5` and `x` even. -/
def base : Point :=
  (decode? (Bytes.littleEndian 32 (mul 4 (inverse 5)))).getD zero

end Point

end StakeQuorum.Edwards
