/-!
# Digests of texts

The digest of a text is the SHA-256 hash of its UTF-8 bytes, kept as eight words.
-/
namespace Clausal

structure Digest where
  words : Vector UInt32 8
  deriving DecidableEq, Repr

namespace Digest

def roundConstants : Array UInt32 := #[
  0x428a2f98, 0x71374491, 0xb5c0fbcf, 0xe9b5dba5, 0x3956c25b, 0x59f111f1, 0x923f82a4, 0xab1c5ed5,
  0xd807aa98, 0x12835b01, 0x243185be, 0x550c7dc3, 0x72be5d74, 0x80deb1fe, 0x9bdc06a7, 0xc19bf174,
  0xe49b69c1, 0xefbe4786, 0x0fc19dc6, 0x240ca1cc, 0x2de92c6f, 0x4a7484aa, 0x5cb0a9dc, 0x76f988da,
  0x983e5152, 0xa831c66d, 0xb00327c8, 0xbf597fc7, 0xc6e00bf3, 0xd5a79147, 0x06ca6351, 0x14292967,
  0x27b70a85, 0x2e1b2138, 0x4d2c6dfc, 0x53380d13, 0x650a7354, 0x766a0abb, 0x81c2c92e, 0x92722c85,
  0xa2bfe8a1, 0xa81a664b, 0xc24b8b70, 0xc76c51a3, 0xd192e819, 0xd6990624, 0xf40e3585, 0x106aa070,
  0x19a4c116, 0x1e376c08, 0x2748774c, 0x34b0bcb5, 0x391c0cb3, 0x4ed8aa4a, 0x5b9cca4f, 0x682e6ff3,
  0x748f82ee, 0x78a5636f, 0x84c87814, 0x8cc70208, 0x90befffa, 0xa4506ceb, 0xbef9a3f7, 0xc67178f2]

def start : Vector UInt32 8 :=
  #v[0x6a09e667, 0xbb67ae85, 0x3c6ef372, 0xa54ff53a, 0x510e527f, 0x9b05688c, 0x1f83d9ab,
    0x5be0cd19]

def rotate (x n : UInt32) : UInt32 := (x >>> n) ||| (x <<< (32 - n))

/-- Zero bytes between the end mark and the length that complete a block of 64 bytes. -/
def zeroCount (size : Nat) : Nat := (119 - size % 64) % 64

/-- The message, the end mark, zeros, and the length in bits as eight bytes. -/
def pad (message : Array UInt8) : Array UInt8 :=
  let bits := 8 * message.size
  let length := (List.range 8).map fun i => UInt8.ofNat (bits / Nat.pow 256 (7 - i))
  message.push 0x80 ++ Array.replicate (zeroCount message.size) 0 ++ length.toArray

/-- The big-endian word that starts at a position. -/
def wordAt (bytes : Array UInt8) (i : Nat) : UInt32 :=
  let byte (k : Nat) : UInt32 := (bytes.getD (i + k) 0).toUInt32
  (byte 0 <<< 24) ||| (byte 1 <<< 16) ||| (byte 2 <<< 8) ||| byte 3

def extendSchedule (w : Array UInt32) (i : Nat) : Array UInt32 :=
  let a := w.getD (i - 15) 0
  let b := w.getD (i - 2) 0
  let s0 := rotate a 7 ^^^ rotate a 18 ^^^ (a >>> 3)
  let s1 := rotate b 17 ^^^ rotate b 19 ^^^ (b >>> 10)
  w.push (w.getD (i - 16) 0 + s0 + w.getD (i - 7) 0 + s1)

def schedule (bytes : Array UInt8) (block : Nat) : Array UInt32 :=
  let given := (Array.range 16).map fun i => wordAt bytes (64 * block + 4 * i)
  (List.range' 16 48).foldl extendSchedule given

def round (w : Array UInt32) (s : Vector UInt32 8) (i : Nat) : Vector UInt32 8 :=
  let a := s[0]
  let e := s[4]
  let s1 := rotate e 6 ^^^ rotate e 11 ^^^ rotate e 25
  let choice := (e &&& s[5]) ^^^ (~~~e &&& s[6])
  let t1 := s[7] + s1 + choice + roundConstants.getD i 0 + w.getD i 0
  let s0 := rotate a 2 ^^^ rotate a 13 ^^^ rotate a 22
  let majority := (a &&& s[1]) ^^^ (a &&& s[2]) ^^^ (s[1] &&& s[2])
  #v[t1 + s0 + majority, a, s[1], s[2], s[3] + t1, e, s[5], s[6]]

def compress (bytes : Array UInt8) (state : Vector UInt32 8) (block : Nat) : Vector UInt32 8 :=
  let w := schedule bytes block
  Vector.zipWith (· + ·) state ((List.range 64).foldl (round w) state)

def ofBytes (message : Array UInt8) : Digest :=
  let bytes := pad message
  ⟨(List.range (bytes.size / 64)).foldl (compress bytes) start⟩

def ofText (text : String) : Digest := ofBytes text.toUTF8.data

/-- Eight hexadecimal digits for each word. -/
def hex (d : Digest) : String :=
  String.ofList (d.words.toList.flatMap fun w =>
    let digits := Nat.toDigits 16 w.toNat
    List.replicate (8 - digits.length) '0' ++ digits)

theorem pad_size_mod (message : Array UInt8) : (pad message).size % 64 = 0 := by
  simp [pad, zeroCount]
  omega

end Digest

end Clausal
