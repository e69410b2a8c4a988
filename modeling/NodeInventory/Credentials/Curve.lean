import NodeInventory.Credentials.Der

/-!
# Elliptic curves

The two curves of ECDSA keys and the one of Ed25519 keys, with the arithmetic and the hash that they
need.
-/

namespace NodeInventory

/-!
## Multiples

`multiple` takes the multiple of an element under any addition by doubling. `multiple_natAdd`
says that for numbers this is multiplication.
-/

theorem half_lt {n : Nat} (h : n ≠ 0) : n / 2 < n := by omega

/-- The sum of `n` times `p`, where `zero` is the sum of none. -/
def multiple {α : Type} (add : α → α → α) (zero : α) (n : Nat) (p : α) : α :=
  if _h : n = 0 then zero
  else
    let half := multiple add zero (n / 2) p
    let even := add half half
    if n % 2 = 0 then even else add even p
termination_by n
decreasing_by exact half_lt _h

theorem multiple_natAdd (n p : Nat) : multiple Nat.add 0 n p = n * p := by
  fun_induction multiple Nat.add 0 n p with
  | case1 => simp
  | case2 n h half even he ih =>
    have : even = (n / 2 + n / 2) * p := by rw [Nat.add_mul, ← ih]; rfl
    rw [this]
    congr 1
    omega
  | case3 n h half even ho ih =>
    have : even = (n / 2 + n / 2) * p := by rw [Nat.add_mul, ← ih]; rfl
    rw [Nat.add_eq, this, ← Nat.succ_mul]
    congr 1
    omega

/-!
## Residues

Arithmetic on the numbers below a modulus `m`.

`inverse` is found by Euclid's algorithm; `inverse_mul_mod` says that a number without a factor in
common with the modulus gives one when multiplied by its inverse.
-/

namespace Residue

/-- The sum of two residues. -/
def add (m a b : Nat) : Nat := (a + b) % m

/-- The difference of two residues. -/
def sub (m a b : Nat) : Nat := (a + (m - b)) % m

/-- The product of two residues. -/
def mul (m a b : Nat) : Nat := a * b % m

/-- Euclid's algorithm on `r` and `s`, each with the factor that leads to it. The result is the
factor of their greatest common divisor. -/
def euclid (r s : Nat) (x y : Int) : Int :=
  if _h : s = 0 then x else euclid s (r % s) y (x - r / s * y)
termination_by s
decreasing_by exact Nat.mod_lt r (Nat.pos_of_ne_zero _h)

/-- The residue that gives one when multiplied by `a`, if there is one. -/
def inverse (m a : Nat) : Nat := (euclid m a 0 1 % m).toNat

/-- The quotient of two residues. -/
def div (m a b : Nat) : Nat := mul m a (inverse m b)

theorem dvd_euclid {m a : Int} {r s : Nat} {x y : Int} (hr : m ∣ x * a - r) (hs : m ∣ y * a - s) :
    m ∣ euclid r s x y * a - Nat.gcd r s := by
  fun_induction euclid r s x y with
  | case1 r x y => simpa using hr
  | case2 r s x y h ih =>
    rw [Nat.gcd_comm, Nat.gcd_rec]
    rw [Nat.gcd_comm] at ih
    refine ih hs ?_
    obtain ⟨u, hu⟩ := hr
    obtain ⟨v, hv⟩ := hs
    refine ⟨u - r / s * v, ?_⟩
    have := Int.emod_add_mul_ediv (r : Int) s
    push_cast
    grind

theorem inverse_mul_mod {m a : Nat} (hm : 1 < m) (h : Nat.gcd m a = 1) :
    inverse m a * a % m = 1 := by
  have hd : (m : Int) ∣ euclid m a 0 1 * a - 1 := by
    have := dvd_euclid (m := m) (a := a) (r := m) (s := a) (x := 0) (y := 1)
      ⟨-1, by omega⟩ ⟨0, by omega⟩
    rwa [h] at this
  have hn : 0 ≤ euclid m a 0 1 % (m : Int) := Int.emod_nonneg _ (by omega)
  obtain ⟨k, hk⟩ := hd
  have : ((inverse m a * a % m : Nat) : Int) = 1 := by
    rw [Int.natCast_emod, Int.natCast_mul, inverse, Int.toNat_of_nonneg hn, Int.mul_emod,
      Int.emod_emod, ← Int.mul_emod, show euclid m a 0 1 * (a : Int) = 1 + m * k by omega,
      Int.add_mul_emod_self_left, Int.emod_eq_of_lt (by decide) (by omega)]
  omega

end Residue

/-!
## Elliptic curves

The points of a curve `y² = x³ - 3x + b` over the residues of a prime form a group, in which
`Curve.add` adds. A secret number stands for the public point that is its multiple of a fixed
point, `Curve.base`.

The curves in use are P-256 and P-384, `Curve.all`.
-/

/-- A curve, with a base point and the number of its multiples. -/
structure Curve where
  /-- The curve's object identifier. -/
  identifier : List UInt8
  prime : Nat
  /-- The constant in the curve's equation. -/
  b : Nat
  base : Nat × Nat
  order : Nat
  /-- The number of bytes in which coordinates and secret numbers are written. -/
  width : Nat
deriving DecidableEq, Repr

namespace Curve

open Residue

/-- A point with two coordinates, or the neutral point, which has none. -/
abbrev Point := Option (Nat × Nat)

/-- The coordinates satisfy the curve's equation. -/
def contains (c : Curve) (p : Nat × Nat) : Bool :=
  mul c.prime p.2 p.2 =
    add c.prime (sub c.prime (mul c.prime (mul c.prime p.1 p.1) p.1) (mul c.prime 3 p.1)) c.b

/-- The slope of the line through two points that are not opposite, of the tangent if the points
are equal. -/
def slope (c : Curve) (p q : Nat × Nat) : Nat :=
  let m := c.prime
  if p = q then div m (sub m (mul m 3 (mul m p.1 p.1)) 3) (mul m 2 p.2)
  else div m (sub m q.2 p.2) (sub m q.1 p.1)

/-- The sum of two points: the line through them meets the curve in one more, and the sum is
opposite to that. -/
def add (c : Curve) : Point → Point → Point
  | none, q => q
  | p, none => p
  | some p, some q =>
    let m := c.prime
    if p.1 = q.1 ∧ Residue.add m p.2 q.2 = 0 then none
    else
      let k := c.slope p q
      let x := sub m (sub m (mul m k k) p.1) q.1
      some (x, sub m (mul m k (sub m p.1 x)) p.2)

/-- The public point of a secret number. -/
def publicPoint (c : Curve) (secret : Nat) : Point := multiple c.add none secret (some c.base)

/-- A point as it is written: both coordinates behind a four, or a zero for the neutral point. -/
def encode (c : Curve) : Point → List UInt8
  | none => [0]
  | some (x, y) => 4 :: Octets.bigEndian c.width x ++ Octets.bigEndian c.width y

/-- The curve P-256. -/
def p256 : Curve where
  identifier := [0x2A, 0x86, 0x48, 0xCE, 0x3D, 0x03, 0x01, 0x07]
  prime := 0xffffffff00000001000000000000000000000000ffffffffffffffffffffffff
  b := 0x5ac635d8aa3a93e7b3ebbd55769886bc651d06b0cc53b0f63bce3c3e27d2604b
  base :=
    (0x6b17d1f2e12c4247f8bce6e563a440f277037d812deb33a0f4a13945d898c296,
      0x4fe342e2fe1a7f9b8ee7eb4a7c0f9e162bce33576b315ececbb6406837bf51f5)
  order := 0xffffffff00000000ffffffffffffffffbce6faada7179e84f3b9cac2fc632551
  width := 32

/-- The curve P-384. -/
def p384 : Curve where
  identifier := [0x2B, 0x81, 0x04, 0x00, 0x22]
  prime :=
    0xfffffffffffffffffffffffffffffffffffffffffffffffffffffffffffffffeffffffff0000000000000000ffffffff
  b :=
    0xb3312fa7e23ee7e4988e056be3f82d19181d9c6efe8141120314088f5013875ac656398d8a2ed19d2a85c8edd3ec2aef
  base :=
    (0xaa87ca22be8b05378eb1c71ef320ad746e1d3b628ba79b9859f741e082542a385502f25dbf55296c3a545e3872760ab7,
      0x3617de4a96262c6f5d9e98bf9292dc29f8f41dbd289a147ce9da3113b5f0b8c00a60b1ce1d7e819d7a431d7c90ea0e5f)
  order :=
    0xffffffffffffffffffffffffffffffffffffffffffffffffc7634d81f4372ddf581a0db248b0a77aecec196accc52973
  width := 48

/-- The curves. -/
def all : List Curve := [p256, p384]

example : (all.all fun c => c.contains c.base) = true := by decide

end Curve

/-!
## The hash SHA-512

`Sha512.hash` gives the hash of bytes, which has 64 bytes itself. The message is padded and cut
into blocks of 128 bytes, and each block changes a state of eight words: its sixteen words are
extended to eighty, each of which makes one step.

The constants are the first bits behind the point of the roots of the first primes, of the square
roots in the first state and of the cube roots in the steps; they are computed from that.
-/

namespace Sha512

/-! ### Constants -/

/-- The number has no divisor but one and itself. -/
def isPrime (n : Nat) : Bool := 2 ≤ n && (List.range n).all fun d => d < 2 || n % d ≠ 0

/-- The first eighty primes. -/
def primes : List Nat := (List.range 410).filter isPrime

/-- The greatest number above `r` by less than `2 ^ bits` whose `k`-th power is at most `n`, if
`r` is such a number. -/
def root (k n : Nat) : (bits r : Nat) → Nat
  | 0, r => r
  | bits + 1, r =>
    let s := r + Nat.pow 2 bits
    root k n bits (if Nat.pow s k ≤ n then s else r)

/-- The first 64 bits behind the point of the `k`-th root of `n`, which is below 256. -/
def rootFraction (k n : Nat) : UInt64 := .ofNat (root k (n * Nat.pow 2 (64 * k)) 72 0)

/-- A constant for each step. -/
def stepConstants : List UInt64 := primes.map (rootFraction 3)

/-- The words between blocks. -/
structure State where
  a : UInt64
  b : UInt64
  c : UInt64
  d : UInt64
  e : UInt64
  f : UInt64
  g : UInt64
  h : UInt64
deriving DecidableEq, Repr

/-- The state before the first block. -/
def State.start : State :=
  ⟨rootFraction 2 2, rootFraction 2 3, rootFraction 2 5, rootFraction 2 7,
    rootFraction 2 11, rootFraction 2 13, rootFraction 2 17, rootFraction 2 19⟩

/-! ### Steps -/

/-- The word with its bits moved to the right, those that leave it coming in from the left. -/
def rotate (n x : UInt64) : UInt64 := (x >>> n) ||| (x <<< (64 - n))

/-- The state after a step with a constant and a word. -/
def State.step (s : State) (constant word : UInt64) : State :=
  let mixE := rotate 14 s.e ^^^ rotate 18 s.e ^^^ rotate 41 s.e
  let choice := (s.e &&& s.f) ^^^ (~~~s.e &&& s.g)
  let mixA := rotate 28 s.a ^^^ rotate 34 s.a ^^^ rotate 39 s.a
  let majority := (s.a &&& s.b) ^^^ (s.a &&& s.c) ^^^ (s.b &&& s.c)
  let t := s.h + mixE + choice + constant + word
  ⟨t + mixA + majority, s.a, s.b, s.c, s.d + t, s.e, s.f, s.g⟩

/-- The words with one more, made from those two, seven, fifteen and sixteen places before. -/
def extend (words : Array UInt64) : Array UInt64 :=
  let back (n : Nat) := words.getD (words.size - n) 0
  let near := back 2
  let far := back 15
  words.push ((rotate 19 near ^^^ rotate 61 near ^^^ (near >>> 6)) + back 7
    + (rotate 1 far ^^^ rotate 8 far ^^^ (far >>> 7)) + back 16)

/-- The words added one by one. -/
def State.add (s t : State) : State :=
  ⟨s.a + t.a, s.b + t.b, s.c + t.c, s.d + t.d, s.e + t.e, s.f + t.f, s.g + t.g, s.h + t.h⟩

/-- The state after a block of sixteen words. -/
def State.absorb (s : State) (block : List UInt64) : State :=
  let words := (Nat.repeat extend 64 block.toArray).toList
  s.add ((stepConstants.zip words).foldl (fun t (constant, word) => t.step constant word) s)

/-! ### Messages -/

/-- The word that eight bytes spell, the first one weighing most. -/
def wordOfBytes (bs : List UInt8) : UInt64 := bs.foldl (fun w b => w * 256 + b.toUInt64) 0

/-- The bytes of a word, the first one weighing most. -/
def bytesOfWord (w : UInt64) : List UInt8 :=
  ([56, 48, 40, 32, 24, 16, 8, 0] : List UInt64).map fun n => (w >>> n).toUInt8

theorem length_drop_lt {n : Nat} {b : UInt8} {bs : List UInt8} :
    ((b :: bs).drop (n + 1)).length < (b :: bs).length := by
  simp only [List.length_drop, List.length_cons]; omega

/-- The bytes in pieces of `n + 1`; the last piece may be shorter. -/
def pieces (n : Nat) (bs : List UInt8) : List (List UInt8) :=
  match bs with
  | [] => []
  | b :: t => (b :: t).take (n + 1) :: pieces n ((b :: t).drop (n + 1))
termination_by bs.length
decreasing_by exact length_drop_lt

/-- The message with a one, zeros and its number of bits behind it, so that it fills blocks. -/
def pad (message : List UInt8) : List UInt8 :=
  let zeros := (239 - message.length % 128) % 128
  message ++ 0x80 :: List.replicate (zeros + 8) 0
    ++ bytesOfWord (.ofNat (8 * message.length))

/-- The hash of a message. -/
def hash (message : List UInt8) : List UInt8 :=
  let blocks := (pieces 127 (pad message)).map fun block => (pieces 7 block).map wordOfBytes
  let s := blocks.foldl State.absorb State.start
  [s.a, s.b, s.c, s.d, s.e, s.f, s.g, s.h].flatMap bytesOfWord

end Sha512

/-!
## The twisted Edwards curve

The points of the curve `y² = 1 + x² + d x² y²` over the residues of `2 ^ 255 - 19` form a group,
that of Ed25519. A secret seed of 32 bytes stands for the public point that is a multiple of `base`,
by a number taken from the hash of the seed; `publicKey` gives that point as it is written.
-/

namespace Edwards

open Residue

/-- The modulus of the coordinates. -/
def prime : Nat := Nat.pow 2 255 - 19

/-- The constant in the curve's equation. -/
def d : Nat := div prime (prime - 121665) 121666

/-- The coordinates of a point. -/
abbrev Point := Nat × Nat

/-- The point satisfies the curve's equation. -/
def contains (p : Point) : Bool :=
  let xx := mul prime p.1 p.1
  let yy := mul prime p.2 p.2
  sub prime yy xx = Residue.add prime 1 (mul prime d (mul prime xx yy))

/-- The point of which public points are multiples. -/
def base : Point :=
  (0x216936d3cd6e53fec0a4e231fdd6dc5c692cc7609525a7b2c9562d608f25d51a, div prime 4 5)

example : contains base = true := by decide +kernel

/-- The neutral point. -/
def neutral : Point := (0, 1)

/-- The sum of two points; the divisors are not zero for any points of the curve. -/
def add (p q : Point) : Point :=
  let xy := mul prime p.1 q.2
  let yx := mul prime p.2 q.1
  let xx := mul prime p.1 q.1
  let yy := mul prime p.2 q.2
  let k := mul prime d (mul prime xx yy)
  (div prime (Residue.add prime xy yx) (Residue.add prime 1 k),
    div prime (Residue.add prime yy xx) (sub prime 1 k))

/-- The secret number of a seed: the first half of its hash, with bit 254 as the highest one and
the three lowest ones left out. -/
def secret (seed : List UInt8) : Nat :=
  let n := Octets.ofLittleEndian ((Sha512.hash seed).take 32) % Nat.pow 2 254
  Nat.pow 2 254 + (n - n % 8)

/-- A point as it is written: its second coordinate, the lowest bit of the first one on top. -/
def encode (p : Point) : List UInt8 :=
  Octets.littleEndian 32 (p.2 + p.1 % 2 * Nat.pow 2 255)

/-- The public key of a seed. -/
def publicKey (seed : List UInt8) : List UInt8 := encode (multiple add neutral (secret seed) base)

end Edwards

end NodeInventory
