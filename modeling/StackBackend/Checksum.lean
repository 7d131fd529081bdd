import StackBackend.Stored.Program

/-! SHA-256, and the checksum of a program: the digest of its stored form written
without blanks. -/

namespace StackBackend

namespace Sha256

/-- First bits of the fractions of the cube roots of the first 64 primes. -/
def roundConstants : List UInt32 :=
  [
    0x428a2f98, 0x71374491, 0xb5c0fbcf, 0xe9b5dba5, 0x3956c25b, 0x59f111f1, 0x923f82a4, 0xab1c5ed5,
    0xd807aa98, 0x12835b01, 0x243185be, 0x550c7dc3, 0x72be5d74, 0x80deb1fe, 0x9bdc06a7, 0xc19bf174,
    0xe49b69c1, 0xefbe4786, 0x0fc19dc6, 0x240ca1cc, 0x2de92c6f, 0x4a7484aa, 0x5cb0a9dc, 0x76f988da,
    0x983e5152, 0xa831c66d, 0xb00327c8, 0xbf597fc7, 0xc6e00bf3, 0xd5a79147, 0x06ca6351, 0x14292967,
    0x27b70a85, 0x2e1b2138, 0x4d2c6dfc, 0x53380d13, 0x650a7354, 0x766a0abb, 0x81c2c92e, 0x92722c85,
    0xa2bfe8a1, 0xa81a664b, 0xc24b8b70, 0xc76c51a3, 0xd192e819, 0xd6990624, 0xf40e3585, 0x106aa070,
    0x19a4c116, 0x1e376c08, 0x2748774c, 0x34b0bcb5, 0x391c0cb3, 0x4ed8aa4a, 0x5b9cca4f, 0x682e6ff3,
    0x748f82ee, 0x78a5636f, 0x84c87814, 0x8cc70208, 0x90befffa, 0xa4506ceb, 0xbef9a3f7, 0xc67178f2]

/-- First bits of the fractions of the square roots of the first eight primes. -/
def initialWords : List UInt32 :=
  [
    0x6a09e667, 0xbb67ae85, 0x3c6ef372, 0xa54ff53a, 0x510e527f, 0x9b05688c, 0x1f83d9ab, 0x5be0cd19]

def rotateRight (x : UInt32) (n : UInt32) : UInt32 := (x >>> n) ||| (x <<< (32 - n))

structure Words where
  a : UInt32
  b : UInt32
  c : UInt32
  d : UInt32
  e : UInt32
  f : UInt32
  g : UInt32
  h : UInt32

namespace Words

def ofList : List UInt32 → Words
  | [a, b, c, d, e, f, g, h] => ⟨a, b, c, d, e, f, g, h⟩
  | _ => ⟨0, 0, 0, 0, 0, 0, 0, 0⟩

def toList (w : Words) : List UInt32 := [w.a, w.b, w.c, w.d, w.e, w.f, w.g, w.h]

def add (v w : Words) : Words :=
  ⟨v.a + w.a, v.b + w.b, v.c + w.c, v.d + w.d, v.e + w.e, v.f + w.f, v.g + w.g, v.h + w.h⟩

/-- One round, with the round constant and the scheduled word. -/
def round (w : Words) (constant scheduled : UInt32) : Words :=
  let s1 := rotateRight w.e 6 ^^^ rotateRight w.e 11 ^^^ rotateRight w.e 25
  let choice := (w.e &&& w.f) ^^^ (~~~w.e &&& w.g)
  let t1 := w.h + s1 + choice + constant + scheduled
  let s0 := rotateRight w.a 2 ^^^ rotateRight w.a 13 ^^^ rotateRight w.a 22
  let majority := (w.a &&& w.b) ^^^ (w.a &&& w.c) ^^^ (w.b &&& w.c)
  ⟨t1 + (s0 + majority), w.a, w.b, w.c, w.d + t1, w.e, w.f, w.g⟩

end Words

/-- The sixteen words in use, the oldest first. Each round takes the oldest and
adds a new one at the end. -/
structure Window where
  words : Array UInt32

namespace Window

def word (w : Window) (i : Nat) : UInt32 := w.words.getD i 0

/-- The word scheduled sixteen rounds later. -/
def next (w : Window) (start : Nat) : UInt32 :=
  let x := w.word (start + 1)
  let y := w.word (start + 14)
  let s0 := rotateRight x 7 ^^^ rotateRight x 18 ^^^ (x >>> 3)
  let s1 := rotateRight y 17 ^^^ rotateRight y 19 ^^^ (y >>> 10)
  w.word start + s0 + w.word (start + 9) + s1

end Window

def rounds (w : Window) (start : Nat) (state : Words) : List UInt32 → Words
  | [] => state
  | constant :: rest =>
    let state := state.round constant (w.word start)
    rounds ⟨w.words.push (w.next start)⟩ (start + 1) state rest

def byteAt (bytes : ByteArray) (i : Nat) : UInt32 :=
  if h : i < bytes.size then bytes[i].toUInt32 else 0

/-- Four bytes, the most significant first. -/
def wordAt (bytes : ByteArray) (i : Nat) : UInt32 :=
  (byteAt bytes i <<< 24) ||| (byteAt bytes (i + 1) <<< 16) |||
    (byteAt bytes (i + 2) <<< 8) ||| byteAt bytes (i + 3)

def blockAt (bytes : ByteArray) (i : Nat) : Window :=
  ⟨((List.range 16).map fun k => wordAt bytes (i + 4 * k)).toArray⟩

def absorb (bytes : ByteArray) (state : Words) (i : Nat) : Words :=
  state.add (rounds (blockAt bytes i) 0 state roundConstants)

/-- Bytes of a number, the most significant first. -/
def bigEndian (n : Nat) : Nat → List UInt8
  | 0 => []
  | count + 1 => bigEndian (n / 256) count ++ [UInt8.ofNat (n % 256)]

/-- The message, a one bit, zeros up to a block's end, and its length in bits. -/
def padded (bytes : ByteArray) : ByteArray :=
  let zeros := (119 - bytes.size % 64) % 64
  let tail := 0x80 :: List.replicate zeros 0 ++ bigEndian (8 * bytes.size) 8
  tail.foldl ByteArray.push bytes

def digest (bytes : ByteArray) : List UInt32 :=
  let message := padded bytes
  ((List.range (message.size / 64)).foldl (fun s i => absorb message s (64 * i))
    (.ofList initialWords)).toList

end Sha256

def hexWord (w : UInt32) : String :=
  String.ofList ((List.range 8).map fun i => Nat.digitChar (w.toNat / twoPow (4 * (7 - i)) % 16))

def hexDigest (text : String) : String :=
  String.join ((Sha256.digest text.toUTF8).map hexWord)

/-- A fingerprint of the stored form, in hexadecimal. -/
def Program.checksum (p : Program) : String := hexDigest p.toJson.compact

end StackBackend
