import DecimalScript.Text.Shown

/-! The hash function SHA-256 on rows of bytes. -/

namespace DecimalScript.Sha256

/-- The eight words that the blocks of a message are worked into. -/
structure Registers where
  a : UInt32
  b : UInt32
  c : UInt32
  d : UInt32
  e : UInt32
  f : UInt32
  g : UInt32
  h : UInt32
  deriving DecidableEq, Repr

/-- The fractions of the square roots of the first eight primes. -/
def initial : Registers :=
  ⟨0x6a09e667, 0xbb67ae85, 0x3c6ef372, 0xa54ff53a, 0x510e527f, 0x9b05688c, 0x1f83d9ab, 0x5be0cd19⟩

/-- The fractions of the cube roots of the first sixty-four primes, one for each step. -/
def stepConstants : List UInt32 :=
  [0x428a2f98, 0x71374491, 0xb5c0fbcf, 0xe9b5dba5, 0x3956c25b, 0x59f111f1, 0x923f82a4, 0xab1c5ed5,
   0xd807aa98, 0x12835b01, 0x243185be, 0x550c7dc3, 0x72be5d74, 0x80deb1fe, 0x9bdc06a7, 0xc19bf174,
   0xe49b69c1, 0xefbe4786, 0x0fc19dc6, 0x240ca1cc, 0x2de92c6f, 0x4a7484aa, 0x5cb0a9dc, 0x76f988da,
   0x983e5152, 0xa831c66d, 0xb00327c8, 0xbf597fc7, 0xc6e00bf3, 0xd5a79147, 0x06ca6351, 0x14292967,
   0x27b70a85, 0x2e1b2138, 0x4d2c6dfc, 0x53380d13, 0x650a7354, 0x766a0abb, 0x81c2c92e, 0x92722c85,
   0xa2bfe8a1, 0xa81a664b, 0xc24b8b70, 0xc76c51a3, 0xd192e819, 0xd6990624, 0xf40e3585, 0x106aa070,
   0x19a4c116, 0x1e376c08, 0x2748774c, 0x34b0bcb5, 0x391c0cb3, 0x4ed8aa4a, 0x5b9cca4f, 0x682e6ff3,
   0x748f82ee, 0x78a5636f, 0x84c87814, 0x8cc70208, 0x90befffa, 0xa4506ceb, 0xbef9a3f7, 0xc67178f2]

def rotate (n : UInt32) (x : UInt32) : UInt32 := (x >>> n) ||| (x <<< (32 - n))

/-- The sixteen words of a block and the forty-eight words that are mixed from them. -/
def schedule (block : Array UInt32) : Array UInt32 :=
  (List.range 48).foldl (fun words i =>
    let near := words.getD (i + 14) 0
    let far := words.getD (i + 1) 0
    let mixNear := rotate 17 near ^^^ rotate 19 near ^^^ (near >>> 10)
    let mixFar := rotate 7 far ^^^ rotate 18 far ^^^ (far >>> 3)
    words.push (words.getD i 0 + mixFar + words.getD (i + 9) 0 + mixNear)) block

def step (r : Registers) (constant word : UInt32) : Registers :=
  let choice := (r.e &&& r.f) ^^^ (~~~r.e &&& r.g)
  let majority := (r.a &&& r.b) ^^^ (r.a &&& r.c) ^^^ (r.b &&& r.c)
  let mixE := rotate 6 r.e ^^^ rotate 11 r.e ^^^ rotate 25 r.e
  let mixA := rotate 2 r.a ^^^ rotate 13 r.a ^^^ rotate 22 r.a
  let first := r.h + mixE + choice + constant + word
  ⟨first + mixA + majority, r.a, r.b, r.c, r.d + first, r.e, r.f, r.g⟩

/-- Works a block of sixteen words into the registers. -/
def compress (r : Registers) (block : Array UInt32) : Registers :=
  let s := (stepConstants.zip (schedule block).toList).foldl (fun s (c, w) => step s c w) r
  ⟨r.a + s.a, r.b + s.b, r.c + s.c, r.d + s.d, r.e + s.e, r.f + s.f, r.g + s.g, r.h + s.h⟩

/-- The bytes of a number, the highest first. -/
def bigEndian : (width : Nat) → Nat → List UInt8
  | 0, _ => []
  | width + 1, n => UInt8.ofNat (n / Nat.pow 256 width) :: bigEndian width n

/-- The message, a one bit, zeros up to a whole number of blocks, and its length in bits. -/
def padded (message : List UInt8) : List UInt8 :=
  let zeros := (119 - message.length % 64) % 64
  message ++ 0x80 :: List.replicate zeros 0 ++ bigEndian 8 (8 * message.length)

def words : List UInt8 → List UInt32
  | a :: b :: c :: d :: rest =>
    ((a.toUInt32 <<< 24) ||| (b.toUInt32 <<< 16) ||| (c.toUInt32 <<< 8) ||| d.toUInt32) :: words rest
  | _ => []

def digest (message : List UInt8) : Registers :=
  let row := (words (padded message)).toArray
  (List.range (row.size / 16)).foldl
    (fun r i => compress r (row.extract (16 * i) (16 * i + 16))) initial

/-- The hash of a message in sixty-four digits. -/
def hex (message : List UInt8) : String :=
  let r := digest message
  String.ofList ([r.a, r.b, r.c, r.d, r.e, r.f, r.g, r.h].flatMap fun w => Text.hexPadded 8 w.toNat)

end DecimalScript.Sha256
