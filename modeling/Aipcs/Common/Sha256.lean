import Mathlib.Data.List.Basic
import Mathlib.Tactic.IntervalCases

/-!
# SHA-256 — the digest of a byte string

The hash of FIPS 180-4 over byte lists: padding, message schedule,
compression, and the lowercase hexadecimal digest. Words are natural
numbers below `2³²`, so that a digest can be computed by evaluation.
What the development uses of the digest is its shape
(`isSha256_sha256Hex`) and the digest of the empty string.
-/

namespace Aipcs

namespace Sha256

/-! ## Words -/

def word (n : ℕ) : ℕ := n % 2 ^ 32

def rotr (x n : ℕ) : ℕ := x >>> n ||| word (x <<< (32 - n))

def choose (x y z : ℕ) : ℕ := (x &&& y) ^^^ ((2 ^ 32 - 1 - x) &&& z)

def majority (x y z : ℕ) : ℕ := (x &&& y) ^^^ (x &&& z) ^^^ (y &&& z)

def bigSigma0 (x : ℕ) : ℕ := rotr x 2 ^^^ rotr x 13 ^^^ rotr x 22

def bigSigma1 (x : ℕ) : ℕ := rotr x 6 ^^^ rotr x 11 ^^^ rotr x 25

def smallSigma0 (x : ℕ) : ℕ := rotr x 7 ^^^ rotr x 18 ^^^ (x >>> 3)

def smallSigma1 (x : ℕ) : ℕ := rotr x 17 ^^^ rotr x 19 ^^^ (x >>> 10)

/-- The 64 round constants. -/
def roundConstants : List ℕ := [
  0x428a2f98, 0x71374491, 0xb5c0fbcf, 0xe9b5dba5, 0x3956c25b, 0x59f111f1, 0x923f82a4, 0xab1c5ed5,
  0xd807aa98, 0x12835b01, 0x243185be, 0x550c7dc3, 0x72be5d74, 0x80deb1fe, 0x9bdc06a7, 0xc19bf174,
  0xe49b69c1, 0xefbe4786, 0x0fc19dc6, 0x240ca1cc, 0x2de92c6f, 0x4a7484aa, 0x5cb0a9dc, 0x76f988da,
  0x983e5152, 0xa831c66d, 0xb00327c8, 0xbf597fc7, 0xc6e00bf3, 0xd5a79147, 0x06ca6351, 0x14292967,
  0x27b70a85, 0x2e1b2138, 0x4d2c6dfc, 0x53380d13, 0x650a7354, 0x766a0abb, 0x81c2c92e, 0x92722c85,
  0xa2bfe8a1, 0xa81a664b, 0xc24b8b70, 0xc76c51a3, 0xd192e819, 0xd6990624, 0xf40e3585, 0x106aa070,
  0x19a4c116, 0x1e376c08, 0x2748774c, 0x34b0bcb5, 0x391c0cb3, 0x4ed8aa4a, 0x5b9cca4f, 0x682e6ff3,
  0x748f82ee, 0x78a5636f, 0x84c87814, 0x8cc70208, 0x90befffa, 0xa4506ceb, 0xbef9a3f7, 0xc67178f2]

/-! ## Blocks -/

/-- The message, a one bit, zeros, and the length in bits. -/
def pad (message : List UInt8) : List ℕ :=
  let n := message.length
  let bits := 8 * n
  message.map UInt8.toNat ++ 0x80 :: List.replicate ((119 - n % 64) % 64) 0 ++
    [7, 6, 5, 4, 3, 2, 1, 0].map fun i => bits >>> (8 * i) % 256

/-- The big-endian words of a byte list. -/
def words : List ℕ → List ℕ
  | a :: b :: c :: d :: rest => (a <<< 24 + b <<< 16 + c <<< 8 + d) :: words rest
  | _ => []

/-- The schedule, latest word first, extended by `n` words. -/
def schedule : ℕ → List ℕ → List ℕ
  | 0, w => w
  | n + 1, w =>
    schedule n
      (word (smallSigma1 (w.getD 1 0) + w.getD 6 0 + smallSigma0 (w.getD 14 0) + w.getD 15 0) :: w)

/-- The eight chaining words. -/
structure Chain where
  a : ℕ
  b : ℕ
  c : ℕ
  d : ℕ
  e : ℕ
  f : ℕ
  g : ℕ
  h : ℕ

/-- One round. -/
def round (s : Chain) (kw : ℕ × ℕ) : Chain :=
  let t1 := s.h + bigSigma1 s.e + choose s.e s.f s.g + kw.1 + kw.2
  let t2 := bigSigma0 s.a + majority s.a s.b s.c
  ⟨word (t1 + t2), s.a, s.b, s.c, word (s.d + t1), s.e, s.f, s.g⟩

/-- The compression of one block. -/
def compress (s : Chain) (block : List ℕ) : Chain :=
  let w := (schedule 48 (words block).reverse).reverse
  let r := (roundConstants.zip w).foldl round s
  ⟨word (s.a + r.a), word (s.b + r.b), word (s.c + r.c), word (s.d + r.d),
    word (s.e + r.e), word (s.f + r.f), word (s.g + r.g), word (s.h + r.h)⟩

/-- The compression of `n` blocks. -/
def compressAll : ℕ → Chain → List ℕ → Chain
  | 0, s, _ => s
  | n + 1, s, bytes => compressAll n (compress s (bytes.take 64)) (bytes.drop 64)

def initial : Chain :=
  ⟨0x6a09e667, 0xbb67ae85, 0x3c6ef372, 0xa54ff53a, 0x510e527f, 0x9b05688c, 0x1f83d9ab, 0x5be0cd19⟩

/-- The digest's words. -/
def digest (message : List UInt8) : Chain :=
  compressAll ((pad message).length / 64) initial (pad message)

/-! ## Hexadecimal -/

/-- A lowercase hexadecimal digit. -/
def hexDigits (n : ℕ) : ℕ → List Char
  | 0 => []
  | k + 1 => hexDigits (n / 16) k ++ [(n % 16).digitChar]

end Sha256

open Sha256 in
/-- `hashlib.sha256(message).hexdigest()`. -/
def sha256Hex (message : List UInt8) : List Char :=
  let s := Sha256.digest message
  [s.a, s.b, s.c, s.d, s.e, s.f, s.g, s.h].flatMap fun w => hexDigits w 8

/-- A lowercase hexadecimal character. -/
def isHexChar (c : Char) : Bool := ('0' ≤ c && c ≤ '9') || ('a' ≤ c && c ≤ 'f')

/-- Sixty-four lowercase hexadecimal characters. -/
def isSha256 (s : List Char) : Bool := s.length = 64 && s.all isHexChar

theorem length_hexDigits (n k : ℕ) : (Sha256.hexDigits n k).length = k := by
  induction k generalizing n with
  | zero => rfl
  | succ k ih => rw [Sha256.hexDigits, List.length_append, ih, List.length_singleton]

theorem isHexChar_digitChar {n : ℕ} (h : n < 16) : isHexChar n.digitChar = true := by
  interval_cases n <;> decide

theorem isHexChar_of_mem_hexDigits {n k : ℕ} {c : Char} (h : c ∈ Sha256.hexDigits n k) :
    isHexChar c = true := by
  induction k generalizing n with
  | zero => exact absurd h List.not_mem_nil
  | succ k ih =>
    rcases List.mem_append.mp h with h | h
    · exact ih h
    · rw [List.mem_singleton.mp h]
      exact isHexChar_digitChar (Nat.mod_lt _ (by omega))

/-- **Every digest has the shape of one.** -/
theorem isSha256_sha256Hex (message : List UInt8) : isSha256 (sha256Hex message) = true := by
  rw [isSha256, Bool.and_eq_true, decide_eq_true_eq, List.all_eq_true]
  constructor
  · simp only [sha256Hex, List.flatMap_cons, List.flatMap_nil, List.length_append,
      length_hexDigits, List.length_nil]
  · intro c hc
    obtain ⟨w, -, hw⟩ := List.mem_flatMap.mp hc
    exact isHexChar_of_mem_hexDigits hw

end Aipcs
