import ClassWeave.Text.Bytes

/-!
The XXH3 digest of 64 bits, seed zero and default secret, and the short digests that name generated
classes. Texts of up to 3, 8, 16, 128, 240 and more bytes are digested in different ways.
-/

namespace ClassWeave.Utility.Digest

def secret : List UInt8 :=
  [0xb8, 0xfe, 0x6c, 0x39, 0x23, 0xa4, 0x4b, 0xbe, 0x7c, 0x01, 0x81, 0x2c, 0xf7, 0x21, 0xad, 0x1c,
    0xde, 0xd4, 0x6d, 0xe9, 0x83, 0x90, 0x97, 0xdb, 0x72, 0x40, 0xa4, 0xa4, 0xb7, 0xb3, 0x67, 0x1f,
    0xcb, 0x79, 0xe6, 0x4e, 0xcc, 0xc0, 0xe5, 0x78, 0x82, 0x5a, 0xd0, 0x7d, 0xcc, 0xff, 0x72, 0x21,
    0xb8, 0x08, 0x46, 0x74, 0xf7, 0x43, 0x24, 0x8e, 0xe0, 0x35, 0x90, 0xe6, 0x81, 0x3a, 0x26, 0x4c,
    0x3c, 0x28, 0x52, 0xbb, 0x91, 0xc3, 0x00, 0xcb, 0x88, 0xd0, 0x65, 0x8b, 0x1b, 0x53, 0x2e, 0xa3,
    0x71, 0x64, 0x48, 0x97, 0xa2, 0x0d, 0xf9, 0x4e, 0x38, 0x19, 0xef, 0x46, 0xa9, 0xde, 0xac, 0xd8,
    0xa8, 0xfa, 0x76, 0x3f, 0xe3, 0x9c, 0x34, 0x3f, 0xf9, 0xdc, 0xbb, 0xc7, 0xc7, 0x0b, 0x4f, 0x1d,
    0x8a, 0x51, 0xe0, 0x4b, 0xcd, 0xb4, 0x59, 0x31, 0xc8, 0x9f, 0x7e, 0xc9, 0xd9, 0x78, 0x73, 0x64,
    0xea, 0xc5, 0xac, 0x83, 0x34, 0xd3, 0xeb, 0xc3, 0xc5, 0x81, 0xa0, 0xff, 0xfa, 0x13, 0x63, 0xeb,
    0x17, 0x0d, 0xdd, 0x51, 0xb7, 0xf0, 0xda, 0x49, 0xd3, 0x16, 0x55, 0x26, 0x29, 0xd4, 0x68, 0x9e,
    0x2b, 0x16, 0xbe, 0x58, 0x7d, 0x47, 0xa1, 0xfc, 0x8f, 0xf8, 0xb8, 0xd1, 0x7a, 0xd0, 0x31, 0xce,
    0x45, 0xcb, 0x3a, 0x8f, 0x95, 0x16, 0x04, 0x28, 0xaf, 0xd7, 0xfb, 0xca, 0xbb, 0x4b, 0x40, 0x7e]

def prime32₁ : UInt64 := 0x9E3779B1
def prime32₂ : UInt64 := 0x85EBCA77
def prime32₃ : UInt64 := 0xC2B2AE3D
def prime64₁ : UInt64 := 0x9E3779B185EBCA87
def prime64₂ : UInt64 := 0xC2B2AE3D27D4EB4F
def prime64₃ : UInt64 := 0x165667B19E3779F9
def prime64₄ : UInt64 := 0x85EBCA77C2B2AE63
def prime64₅ : UInt64 := 0x27D4EB2F165667C5
def mixer₁ : UInt64 := 0x165667919E3779F9
def mixer₂ : UInt64 := 0x9FB21C651E98DF25

def ofBytes (bs : List UInt8) : UInt64 := bs.foldr (fun b n => (n <<< 8) ||| b.toUInt64) 0

def word32 (bs : List UInt8) (i : Nat) : UInt64 := ofBytes ((bs.drop i).take 4)

def word64 (bs : List UInt8) (i : Nat) : UInt64 := ofBytes ((bs.drop i).take 8)

def byteAt (bs : List UInt8) (i : Nat) : UInt64 := ofBytes ((bs.drop i).take 1)

def secretWord (i : Nat) : UInt64 := word64 secret i

def mulFold (a b : UInt64) : UInt64 :=
  let p := a.toNat * b.toNat
  UInt64.ofNat p ^^^ UInt64.ofNat (p >>> 64)

def rotateLeft (a n : UInt64) : UInt64 := (a <<< n) ||| (a >>> (64 - n))

def swapBytes (a : UInt64) : UInt64 :=
  ofBytes ((List.range 8).reverse.map fun i => (a >>> (8 * UInt64.ofNat i)).toUInt8)

def shiftXor (a n : UInt64) : UInt64 := a ^^^ (a >>> n)

def avalanche (h : UInt64) : UInt64 := shiftXor (shiftXor h 37 * mixer₁) 32

def avalancheShort (h : UInt64) : UInt64 :=
  shiftXor (shiftXor (shiftXor h 33 * prime64₂) 29 * prime64₃) 32

def mix16 (bs : List UInt8) (i key : Nat) : UInt64 :=
  mulFold (word64 bs i ^^^ secretWord key) (word64 bs (i + 8) ^^^ secretWord (key + 8))

def upTo3 (bs : List UInt8) : UInt64 :=
  let n := bs.length
  let bits := (byteAt bs 0 <<< 16) ||| (byteAt bs (n / 2) <<< 24) ||| byteAt bs (n - 1) |||
    (UInt64.ofNat n <<< 8)
  avalancheShort (bits ^^^ (word32 secret 0 ^^^ word32 secret 4))

def upTo8 (bs : List UInt8) : UInt64 :=
  let n := bs.length
  let bits := word32 bs (n - 4) + (word32 bs 0 <<< 32)
  let h := bits ^^^ (secretWord 8 ^^^ secretWord 16)
  let h := (h ^^^ rotateLeft h 49 ^^^ rotateLeft h 24) * mixer₂
  shiftXor ((h ^^^ ((h >>> 35) + UInt64.ofNat n)) * mixer₂) 28

def upTo16 (bs : List UInt8) : UInt64 :=
  let n := bs.length
  let low := word64 bs 0 ^^^ (secretWord 24 ^^^ secretWord 32)
  let high := word64 bs (n - 8) ^^^ (secretWord 40 ^^^ secretWord 48)
  avalanche (UInt64.ofNat n + swapBytes low + high + mulFold low high)

def upTo128 (bs : List UInt8) : UInt64 :=
  let n := bs.length
  let pairs := (n - 1) / 32 + 1
  avalanche ((List.range pairs).foldl (fun acc i =>
    acc + mix16 bs (16 * i) (32 * i) + mix16 bs (n - 16 * (i + 1)) (32 * i + 16))
    (UInt64.ofNat n * prime64₁))

def upTo240 (bs : List UInt8) : UInt64 :=
  let n := bs.length
  let first := avalanche ((List.range 8).foldl (fun acc i =>
    acc + mix16 bs (16 * i) (16 * i)) (UInt64.ofNat n * prime64₁))
  let rest := (List.range (n / 16 - 8)).foldl (fun acc i =>
    acc + mix16 bs (16 * (i + 8)) (16 * i + 3)) first
  avalanche (rest + mix16 bs (n - 16) 119)

abbrev Lanes := List UInt64

def startLanes : Lanes :=
  [prime32₃, prime64₁, prime64₂, prime64₃, prime64₄, prime32₂, prime64₅, prime32₁]

def absorb (key : Nat) (acc : Lanes) (bs : List UInt8) : Lanes :=
  acc.mapIdx fun i a =>
    let k := word64 bs (8 * i) ^^^ secretWord (key + 8 * i)
    a + word64 bs (8 * (i ^^^ 1)) + (k &&& (0xFFFFFFFF : UInt64)) * (k >>> 32)

def scramble (acc : Lanes) : Lanes :=
  acc.mapIdx fun i a => (shiftXor a 47 ^^^ secretWord (128 + 8 * i)) * prime32₁

def absorbStripe (bs : List UInt8) (acc : Lanes) (stripe : Nat) : Lanes :=
  let acc := absorb (8 * (stripe % 16)) acc (bs.drop (64 * stripe))
  if stripe % 16 = 15 then scramble acc else acc

def mergeLanes (acc : Lanes) (start : UInt64) : UInt64 :=
  let lane := fun i => acc.getD i 0
  avalanche ((List.range 4).foldl (fun h i =>
    h + mulFold (lane (2 * i) ^^^ secretWord (11 + 16 * i))
      (lane (2 * i + 1) ^^^ secretWord (19 + 16 * i))) start)

def unbounded (bs : List UInt8) : UInt64 :=
  let n := bs.length
  let acc := (List.range ((n - 1) / 64)).foldl (absorbStripe bs) startLanes
  mergeLanes (absorb 121 acc (bs.drop (n - 64))) (UInt64.ofNat n * prime64₁)

def digest (bs : List UInt8) : UInt64 :=
  let n := bs.length
  if n = 0 then avalancheShort (secretWord 56 ^^^ secretWord 64)
  else if n ≤ 3 then upTo3 bs
  else if n ≤ 8 then upTo8 bs
  else if n ≤ 16 then upTo16 bs
  else if n ≤ 128 then upTo128 bs
  else if n ≤ 240 then upTo240 bs
  else unbounded bs

def shortText (text : String) : String :=
  let h := (digest (Text.utf8 text.toList)).toNat
  .ofList ((List.range 8).reverse.map fun i => Nat.digitChar ((h >>> (4 * i)) % 16))

end ClassWeave.Utility.Digest
