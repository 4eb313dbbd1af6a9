import Sails.Library.CMemory

/-!
# MD5 (`crypto/md5.cc`)

The digest of a stream of bytes, which is cut into blocks of 64.

- `transform` compresses one block into the four words of the state
- `update` counts the bits in two words, fills the block begun earlier, compresses all the full
  blocks it has and keeps what is left in `buffer`
- `final` pads by `update` itself and then puts the state and the counts back, but not the buffer
- `digest` asks `finished`, which `final` has cleared again through `update`
-/

namespace Sails.Crypto

open TransitionRun (Fault)
open CMemory

/-- Why a call has no result. -/
inductive Md5Fault where
  /-- a read or write outside an array -/
  | memory (fault : Fault)
  /-- the block loop of `update` never ends -/
  | endless
  deriving DecidableEq, Repr

/-! ## The rounds -/

def s11 : UInt32 := 7
def s12 : UInt32 := 12
def s13 : UInt32 := 17
def s14 : UInt32 := 22
def s21 : UInt32 := 5
def s22 : UInt32 := 9
def s23 : UInt32 := 14
def s24 : UInt32 := 20
def s31 : UInt32 := 4
def s32 : UInt32 := 11
def s33 : UInt32 := 16
def s34 : UInt32 := 23
def s41 : UInt32 := 6
def s42 : UInt32 := 10
def s43 : UInt32 := 15
def s44 : UInt32 := 21

def roundF (x y z : UInt32) : UInt32 := (x &&& y) ||| (~~~x &&& z)

def roundG (x y z : UInt32) : UInt32 := (x &&& z) ||| (y &&& ~~~z)

def roundH (x y z : UInt32) : UInt32 := x ^^^ y ^^^ z

def roundI (x y z : UInt32) : UInt32 := y ^^^ (x ||| ~~~z)

/-- `ROTATE_LEFT`. -/
def rotateLeft (x n : UInt32) : UInt32 := (x <<< n) ||| (x >>> (32 - n))

/-- What the four macros `FF`, `GG`, `HH` and `II` leave in `a`. -/
def roundStep (f : UInt32 → UInt32 → UInt32 → UInt32) (a b c d x s ac : UInt32) : UInt32 :=
  rotateLeft (a + (f b c d + x + ac)) s + b

def ff : UInt32 → UInt32 → UInt32 → UInt32 → UInt32 → UInt32 → UInt32 → UInt32 := roundStep roundF

def gg : UInt32 → UInt32 → UInt32 → UInt32 → UInt32 → UInt32 → UInt32 → UInt32 := roundStep roundG

def hh : UInt32 → UInt32 → UInt32 → UInt32 → UInt32 → UInt32 → UInt32 → UInt32 := roundStep roundH

def ii : UInt32 → UInt32 → UInt32 → UInt32 → UInt32 → UInt32 → UInt32 → UInt32 := roundStep roundI

/-- `_state`. -/
structure MD5State where
  a : UInt32
  b : UInt32
  c : UInt32
  d : UInt32
  deriving DecidableEq, Repr

/-- The words of the state in memory order. -/
def MD5State.words (s : MD5State) : List UInt32 := [s.a, s.b, s.c, s.d]

/-- Word `i` of the `x` that `decode` makes of a block. -/
def decode (block : Bytes) (i : Nat) : UInt32 :=
  (block.getD (4 * i) 0).toUInt32 ||| ((block.getD (4 * i + 1) 0).toUInt32 <<< 8) |||
    ((block.getD (4 * i + 2) 0).toUInt32 <<< 16) ||| ((block.getD (4 * i + 3) 0).toUInt32 <<< 24)

/-- `transform`, on the state and a block of 64 bytes. -/
def transform (s : MD5State) (block : Bytes) : MD5State :=
  let x := decode block
  let a := s.a
  let b := s.b
  let c := s.c
  let d := s.d
  -- round 1
  let a := ff a b c d (x 0) s11 0xd76aa478
  let d := ff d a b c (x 1) s12 0xe8c7b756
  let c := ff c d a b (x 2) s13 0x242070db
  let b := ff b c d a (x 3) s14 0xc1bdceee
  let a := ff a b c d (x 4) s11 0xf57c0faf
  let d := ff d a b c (x 5) s12 0x4787c62a
  let c := ff c d a b (x 6) s13 0xa8304613
  let b := ff b c d a (x 7) s14 0xfd469501
  let a := ff a b c d (x 8) s11 0x698098d8
  let d := ff d a b c (x 9) s12 0x8b44f7af
  let c := ff c d a b (x 10) s13 0xffff5bb1
  let b := ff b c d a (x 11) s14 0x895cd7be
  let a := ff a b c d (x 12) s11 0x6b901122
  let d := ff d a b c (x 13) s12 0xfd987193
  let c := ff c d a b (x 14) s13 0xa679438e
  let b := ff b c d a (x 15) s14 0x49b40821
  -- round 2
  let a := gg a b c d (x 1) s21 0xf61e2562
  let d := gg d a b c (x 6) s22 0xc040b340
  let c := gg c d a b (x 11) s23 0x265e5a51
  let b := gg b c d a (x 0) s24 0xe9b6c7aa
  let a := gg a b c d (x 5) s21 0xd62f105d
  let d := gg d a b c (x 10) s22 0x2441453
  let c := gg c d a b (x 15) s23 0xd8a1e681
  let b := gg b c d a (x 4) s24 0xe7d3fbc8
  let a := gg a b c d (x 9) s21 0x21e1cde6
  let d := gg d a b c (x 14) s22 0xc33707d6
  let c := gg c d a b (x 3) s23 0xf4d50d87
  let b := gg b c d a (x 8) s24 0x455a14ed
  let a := gg a b c d (x 13) s21 0xa9e3e905
  let d := gg d a b c (x 2) s22 0xfcefa3f8
  let c := gg c d a b (x 7) s23 0x676f02d9
  let b := gg b c d a (x 12) s24 0x8d2a4c8a
  -- round 3
  let a := hh a b c d (x 5) s31 0xfffa3942
  let d := hh d a b c (x 8) s32 0x8771f681
  let c := hh c d a b (x 11) s33 0x6d9d6122
  let b := hh b c d a (x 14) s34 0xfde5380c
  let a := hh a b c d (x 1) s31 0xa4beea44
  let d := hh d a b c (x 4) s32 0x4bdecfa9
  let c := hh c d a b (x 7) s33 0xf6bb4b60
  let b := hh b c d a (x 10) s34 0xbebfbc70
  let a := hh a b c d (x 13) s31 0x289b7ec6
  let d := hh d a b c (x 0) s32 0xeaa127fa
  let c := hh c d a b (x 3) s33 0xd4ef3085
  let b := hh b c d a (x 6) s34 0x4881d05
  let a := hh a b c d (x 9) s31 0xd9d4d039
  let d := hh d a b c (x 12) s32 0xe6db99e5
  let c := hh c d a b (x 15) s33 0x1fa27cf8
  let b := hh b c d a (x 2) s34 0xc4ac5665
  -- round 4
  let a := ii a b c d (x 0) s41 0xf4292244
  let d := ii d a b c (x 7) s42 0x432aff97
  let c := ii c d a b (x 14) s43 0xab9423a7
  let b := ii b c d a (x 5) s44 0xfc93a039
  let a := ii a b c d (x 12) s41 0x655b59c3
  let d := ii d a b c (x 3) s42 0x8f0ccc92
  let c := ii c d a b (x 10) s43 0xffeff47d
  let b := ii b c d a (x 1) s44 0x85845dd1
  let a := ii a b c d (x 8) s41 0x6fa87e4f
  let d := ii d a b c (x 15) s42 0xfe2ce6e0
  let c := ii c d a b (x 6) s43 0xa3014314
  let b := ii b c d a (x 13) s44 0x4e0811a1
  let a := ii a b c d (x 4) s41 0xf7537e82
  let d := ii d a b c (x 11) s42 0xbd3af235
  let c := ii c d a b (x 2) s43 0x2ad7d2bb
  let b := ii b c d a (x 9) s44 0xeb86d391
  ⟨s.a + a, s.b + b, s.c + c, s.d + d⟩

/-- `encode`: the words as bytes, low-order byte first. -/
def encode (words : List UInt32) : Bytes :=
  words.flatMap fun (w : UInt32) => [(w &&& 0xff).toUInt8, (w >>> 8 &&& 0xff).toUInt8,
    (w >>> 16 &&& 0xff).toUInt8, (w >>> 24 &&& 0xff).toUInt8]

/-- `PADDING`. -/
def PADDING : Bytes := 0x80 :: List.replicate 63 0

/-! ## The object -/

/-- `MD5`. -/
structure MD5 where
  /-- `_state` -/
  state : MD5State
  /-- `_count[0]`, the low-order word of the number of bits -/
  count0 : UInt32
  /-- `_count[1]` -/
  count1 : UInt32
  /-- `_buffer` -/
  buffer : CharArray 64
  /-- `_digest` -/
  digested : Bytes
  /-- `_finished` -/
  finished : Bool
  deriving DecidableEq

/-- `input[i .. i + n)`; a byte behind the input is a fault. -/
def readAt (input : Bytes) (i n : Nat) : Except Md5Fault Bytes :=
  if i + n ≤ input.length then .ok ((input.drop i).take n) else .error (.memory .outOfBounds)

/-- `memcpy(&_buffer[index], ..)`. -/
def storeAt (buffer : CharArray 64) (index : Nat) (bs : Bytes) :
    Except Md5Fault (CharArray 64) :=
  (buffer.store index bs).mapError .memory

/-- `for (i = partLen; i + 63 < length; i += 64) transform(&input[i])`, with `i + 63` in 32 bits and
`length` in 64; at most `fuel` blocks. -/
def transformFrom (input : Bytes) (s : MD5State) (i : UInt32) :
    Nat → Except Md5Fault (MD5State × UInt32)
  | 0 => .error .endless
  | fuel + 1 =>
    if (i + 63).toNat < input.length then do
      let block ← readAt input i.toNat 64
      transformFrom input (transform s block) (i + 64) fuel
    else .ok (s, i)

namespace MD5

/-- `reset`, which leaves the buffer and the digest. -/
def reset (m : MD5) : MD5 :=
  { m with
    finished := false
    count0 := 0
    count1 := 0
    state := ⟨0x67452301, 0xefcdab89, 0x98badcfe, 0x10325476⟩ }

/-- The number of bytes mod 64. -/
def index (m : MD5) : UInt32 := m.count0 >>> 3 &&& 0x3f

/-- "update number of bits" -/
def addBits (m : MD5) (length : Nat) : MD5 :=
  let bits := length.toUInt32 <<< 3
  let count0 := m.count0 + bits
  let carried := if count0 < bits then m.count1 + 1 else m.count1
  { m with count0, count1 := carried + length.toUInt32 >>> 29 }

/-- `update` of as many bytes as the input has. A loop of `length / 64` blocks that has not ended
then has begun again at a wrapped `i`. -/
def update (m : MD5) (input : Bytes) : Except Md5Fault MD5 :=
  let index := m.index
  let partLen := 64 - index
  let m := { m.addBits input.length with finished := false }
  if partLen.toNat ≤ input.length then do
    let start ← readAt input 0 partLen.toNat
    let buffer ← storeAt m.buffer index.toNat start
    let (state, i) ←
      transformFrom input (transform m.state buffer.bytes) partLen (input.length / 64 + 1)
    let left ← readAt input i.toNat (input.length - i.toNat)
    let buffer ← storeAt buffer 0 left
    return { m with state, buffer }
  else do
    let buffer ← storeAt m.buffer index.toNat input
    return { m with buffer }

/-- "Pad out to 56 mod 64." -/
def padLen (m : MD5) : UInt32 := if m.index < 56 then 56 - m.index else 120 - m.index

/-- `final`. -/
def final (m : MD5) : Except Md5Fault MD5 := do
  let bits := encode [m.count0, m.count1]
  let pad ← readAt PADDING 0 m.padLen.toNat
  let padded ← m.update pad
  let closed ← padded.update bits
  -- the state and the counts are restored, the buffer stays as the padding has left it
  return { closed with
    digested := encode closed.state.words
    state := m.state
    count0 := m.count0
    count1 := m.count1 }

/-- `digest`, with the 16 bytes behind the pointer it returns. -/
def digest (m : MD5) : Except Md5Fault (MD5 × Bytes) :=
  if m.finished then .ok (m, m.digested)
  else do
    let m ← { m with finished := true }.final
    return (m, m.digested)

end MD5

end Sails.Crypto
