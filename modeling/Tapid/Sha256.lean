/-
SHA-256 and HMAC-SHA-256 on byte lists.

Words are natural numbers below `2 ^ 32`; the rounds consume the message
schedule from a window of its last sixteen words.
-/
import Tapid.Bytes

namespace Sha256

/-- Addition modulo `2 ^ 32`. -/
def add (a b : Nat) : Nat := (a + b) % 4294967296

def rotr (x n : Nat) : Nat := (x >>> n) ||| ((x <<< (32 - n)) % 4294967296)

def not (x : Nat) : Nat := 4294967295 - x

/-- Fractional parts of the cube roots of the first primes. -/
def roundConstants : List Nat := [
  0x428a2f98, 0x71374491, 0xb5c0fbcf, 0xe9b5dba5, 0x3956c25b, 0x59f111f1, 0x923f82a4, 0xab1c5ed5,
  0xd807aa98, 0x12835b01, 0x243185be, 0x550c7dc3, 0x72be5d74, 0x80deb1fe, 0x9bdc06a7, 0xc19bf174,
  0xe49b69c1, 0xefbe4786, 0x0fc19dc6, 0x240ca1cc, 0x2de92c6f, 0x4a7484aa, 0x5cb0a9dc, 0x76f988da,
  0x983e5152, 0xa831c66d, 0xb00327c8, 0xbf597fc7, 0xc6e00bf3, 0xd5a79147, 0x06ca6351, 0x14292967,
  0x27b70a85, 0x2e1b2138, 0x4d2c6dfc, 0x53380d13, 0x650a7354, 0x766a0abb, 0x81c2c92e, 0x92722c85,
  0xa2bfe8a1, 0xa81a664b, 0xc24b8b70, 0xc76c51a3, 0xd192e819, 0xd6990624, 0xf40e3585, 0x106aa070,
  0x19a4c116, 0x1e376c08, 0x2748774c, 0x34b0bcb5, 0x391c0cb3, 0x4ed8aa4a, 0x5b9cca4f, 0x682e6ff3,
  0x748f82ee, 0x78a5636f, 0x84c87814, 0x8cc70208, 0x90befffa, 0xa4506ceb, 0xbef9a3f7, 0xc67178f2]

/-- Fractional parts of the square roots of the first primes. -/
def initial : List Nat := [
  0x6a09e667, 0xbb67ae85, 0x3c6ef372, 0xa54ff53a, 0x510e527f, 0x9b05688c, 0x1f83d9ab, 0x5be0cd19]

/-- The working variables of the compression. -/
structure Vars where
  a : Nat
  b : Nat
  c : Nat
  d : Nat
  e : Nat
  f : Nat
  g : Nat
  h : Nat

/-- One round with its constant and its word of the schedule. -/
def round (v : Vars) (k w : Nat) : Vars :=
  let ch := (v.e &&& v.f) ^^^ (not v.e &&& v.g)
  let maj := (v.a &&& v.b) ^^^ (v.a &&& v.c) ^^^ (v.b &&& v.c)
  let t := add (add (add v.h (rotr v.e 6 ^^^ rotr v.e 11 ^^^ rotr v.e 25)) (add ch k)) w
  ⟨add t (add (rotr v.a 2 ^^^ rotr v.a 13 ^^^ rotr v.a 22) maj), v.a, v.b, v.c, add v.d t, v.e, v.f, v.g⟩

/-- The word that follows a window of sixteen. -/
def nextWord (window : List Nat) : Nat :=
  let w := fun i => window.getD i 0
  add (add (rotr (w 14) 17 ^^^ rotr (w 14) 19 ^^^ (w 14) >>> 10) (w 9))
    (add (rotr (w 1) 7 ^^^ rotr (w 1) 18 ^^^ (w 1) >>> 3) (w 0))

def rounds : List Nat → List Nat → Vars → Vars
  | [], _, v => v
  | k :: ks, window, v => rounds ks (window.tail ++ [nextWord window]) (round v k (window.headD 0))

/-- The big-endian words of a block. -/
def words : List UInt8 → List Nat
  | a :: b :: c :: d :: rest =>
    (((a.toNat * 256 + b.toNat) * 256 + c.toNat) * 256 + d.toNat) :: words rest
  | _ => []

def compress (h : List Nat) (block : List UInt8) : List Nat :=
  let w := fun i => h.getD i 0
  let v := rounds roundConstants (words block) ⟨w 0, w 1, w 2, w 3, w 4, w 5, w 6, w 7⟩
  List.zipWith add h [v.a, v.b, v.c, v.d, v.e, v.f, v.g, v.h]

/-- A message with its padding. -/
def pad (message : List UInt8) : List UInt8 :=
  message ++ 0x80 :: List.replicate ((119 - message.length % 64) % 64) 0 ++
    Bytes.beBytes 8 (8 * message.length)

/-- The blocks of a padded message in turn. -/
def blocks : Nat → List UInt8 → List Nat → List Nat
  | 0, _, h => h
  | n + 1, bytes, h => blocks n (bytes.drop 64) (compress h (bytes.take 64))

def digest (message : List UInt8) : List UInt8 :=
  (blocks ((pad message).length / 64) (pad message) initial).flatMap (Bytes.beBytes 4)

def hmac (key message : List UInt8) : List UInt8 :=
  let key := if 64 < key.length then digest key else key
  let padded := key ++ List.replicate (64 - key.length) 0
  digest (padded.map (· ^^^ 0x5c) ++ digest (padded.map (· ^^^ 0x36) ++ message))

theorem length_blocks (n : Nat) (bytes : List UInt8) (h : List Nat) (hh : h.length = 8) :
    (blocks n bytes h).length = 8 := by
  induction n generalizing bytes h with
  | zero => exact hh
  | succ n ih =>
    refine ih _ _ ?_
    rw [compress, List.length_zipWith, hh]
    rfl

/-- **A digest has 32 bytes.** -/
theorem length_digest (message : List UInt8) : (digest message).length = 32 := by
  have hlen := length_blocks ((pad message).length / 64) (pad message) initial rfl
  rw [digest, List.length_flatMap]
  generalize blocks _ _ _ = h at hlen
  have hall : h.map (fun w => (Bytes.beBytes 4 w).length) = List.replicate h.length 4 := by
    rw [List.eq_replicate_iff]
    refine ⟨List.length_map _, fun n hn => ?_⟩
    obtain ⟨w, _, rfl⟩ := List.mem_map.mp hn
    exact Bytes.length_beBytes 4 w
  rw [hall, hlen]
  rfl

theorem length_hmac (key message : List UInt8) : (hmac key message).length = 32 := length_digest _

example : digest [0x61, 0x62, 0x63] =
    [0xba, 0x78, 0x16, 0xbf, 0x8f, 0x01, 0xcf, 0xea, 0x41, 0x41, 0x40, 0xde, 0x5d, 0xae, 0x22, 0x23,
     0xb0, 0x03, 0x61, 0xa3, 0x96, 0x17, 0x7a, 0x9c, 0xb4, 0x10, 0xff, 0x61, 0xf2, 0x00, 0x15, 0xad] := by
  decide +kernel

end Sha256
