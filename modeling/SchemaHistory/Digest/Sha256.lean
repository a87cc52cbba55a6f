/-! # SHA-256

The digest of a list of bytes by the Secure Hash Algorithm with 256 bits: the padded message is cut
into blocks of sixteen words, and each block is folded into a state of eight words in sixty-four
rounds. -/
set_option autoImplicit false
namespace SchemaHistory.Sha256

structure State where
  a : UInt32
  b : UInt32
  c : UInt32
  d : UInt32
  e : UInt32
  f : UInt32
  g : UInt32
  h : UInt32
  deriving DecidableEq, Repr

def initial : State :=
  ⟨0x6a09e667, 0xbb67ae85, 0x3c6ef372, 0xa54ff53a,
    0x510e527f, 0x9b05688c, 0x1f83d9ab, 0x5be0cd19⟩

def constants : List UInt32 :=
  [0x428a2f98, 0x71374491, 0xb5c0fbcf, 0xe9b5dba5, 0x3956c25b, 0x59f111f1, 0x923f82a4, 0xab1c5ed5,
    0xd807aa98, 0x12835b01, 0x243185be, 0x550c7dc3, 0x72be5d74, 0x80deb1fe, 0x9bdc06a7, 0xc19bf174,
    0xe49b69c1, 0xefbe4786, 0x0fc19dc6, 0x240ca1cc, 0x2de92c6f, 0x4a7484aa, 0x5cb0a9dc, 0x76f988da,
    0x983e5152, 0xa831c66d, 0xb00327c8, 0xbf597fc7, 0xc6e00bf3, 0xd5a79147, 0x06ca6351, 0x14292967,
    0x27b70a85, 0x2e1b2138, 0x4d2c6dfc, 0x53380d13, 0x650a7354, 0x766a0abb, 0x81c2c92e, 0x92722c85,
    0xa2bfe8a1, 0xa81a664b, 0xc24b8b70, 0xc76c51a3, 0xd192e819, 0xd6990624, 0xf40e3585, 0x106aa070,
    0x19a4c116, 0x1e376c08, 0x2748774c, 0x34b0bcb5, 0x391c0cb3, 0x4ed8aa4a, 0x5b9cca4f, 0x682e6ff3,
    0x748f82ee, 0x78a5636f, 0x84c87814, 0x8cc70208, 0x90befffa, 0xa4506ceb, 0xbef9a3f7, 0xc67178f2]

def rotate (x n : UInt32) : UInt32 := (x >>> n) ||| (x <<< (32 - n))

/-- The schedule of a block, its words followed by mixtures of earlier ones. -/
def schedule (block : List UInt32) : List UInt32 :=
  let extend (words : Array UInt32) (t : Nat) : Array UInt32 :=
    let w (back : Nat) := words.getD (t - back) 0
    let s0 := rotate (w 15) 7 ^^^ rotate (w 15) 18 ^^^ (w 15 >>> 3)
    let s1 := rotate (w 2) 17 ^^^ rotate (w 2) 19 ^^^ (w 2 >>> 10)
    words.push (w 16 + s0 + w 7 + s1)
  (((List.range 48).map (· + 16)).foldl extend block.toArray).toList

def round (s : State) (kw : UInt32 × UInt32) : State :=
  let s1 := rotate s.e 6 ^^^ rotate s.e 11 ^^^ rotate s.e 25
  let choice := (s.e &&& s.f) ^^^ (~~~s.e &&& s.g)
  let t1 := s.h + s1 + choice + kw.1 + kw.2
  let s0 := rotate s.a 2 ^^^ rotate s.a 13 ^^^ rotate s.a 22
  let majority := (s.a &&& s.b) ^^^ (s.a &&& s.c) ^^^ (s.b &&& s.c)
  ⟨t1 + (s0 + majority), s.a, s.b, s.c, s.d + t1, s.e, s.f, s.g⟩

def compress (s : State) (block : List UInt32) : State :=
  let r := (constants.zip (schedule block)).foldl round s
  ⟨s.a + r.a, s.b + r.b, s.c + r.c, s.d + r.d, s.e + r.e, s.f + r.f, s.g + r.g, s.h + r.h⟩

/-- The `count` bytes of a number, the most significant one first. -/
def bytesOf (count n : Nat) : List UInt8 :=
  ((List.range count).map fun i => UInt8.ofNat (n / Nat.pow 256 i % 256)).reverse

/-- A one bit, zeros up to eight bytes before the end of a block, and the length in bits. -/
def padded (message : List UInt8) : List UInt8 :=
  let zeros := (119 - message.length % 64) % 64
  message ++ 0x80 :: (List.replicate zeros 0 ++ bytesOf 8 (8 * message.length))

def wordsOf (acc : List UInt32) : List UInt8 → List UInt32
  | a :: b :: c :: d :: rest =>
    wordsOf (((a.toUInt32 <<< 24) ||| (b.toUInt32 <<< 16) ||| (c.toUInt32 <<< 8) ||| d.toUInt32)
      :: acc) rest
  | _ => acc.reverse

def compressAll (s : State) : (blocks : Nat) → List UInt32 → State
  | 0, _ => s
  | blocks + 1, words => compressAll (compress s (words.take 16)) blocks (words.drop 16)

def digest (message : List UInt8) : State :=
  let words := wordsOf [] (padded message)
  compressAll initial (words.length / 16) words

def hexWord (x : UInt32) : String :=
  let digits := Nat.toDigits 16 x.toNat
  String.ofList (List.replicate (8 - digits.length) '0' ++ digits)

/-- The digest in sixty-four hexadecimal digits. -/
def hex (message : List UInt8) : String :=
  let s := digest message
  String.join ([s.a, s.b, s.c, s.d, s.e, s.f, s.g, s.h].map hexWord)

end SchemaHistory.Sha256
