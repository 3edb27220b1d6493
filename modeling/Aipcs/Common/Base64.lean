import Mathlib.Data.List.Basic
import Mathlib.Tactic.IntervalCases

/-!
# Base64 — the URL-safe alphabet, without padding

Six bits a character, three bytes in four characters, and two or three
characters for the one or two bytes that are left. Where bytes are left,
the last character has two or four bits more than they need: `encode`
writes zeros there, and `decode` does not look at them. So what `encode`
writes is decoded (`decode_encode`), and a text that is decoded is the one
`encode` writes just where those bits are zero.
-/

namespace Aipcs

namespace Base64

/-! ## Digits -/

/-- The character of six bits. -/
def digitChar (n : ℕ) : Char :=
  if n < 26 then Char.ofNat (65 + n)
  else if n < 52 then Char.ofNat (71 + n)
  else if n < 62 then Char.ofNat (n - 4)
  else if n = 62 then '-' else '_'

/-- The six bits of a character. -/
def digitValue (c : Char) : Option ℕ :=
  let n := c.toNat
  if 65 ≤ n ∧ n ≤ 90 then some (n - 65)
  else if 97 ≤ n ∧ n ≤ 122 then some (n - 71)
  else if 48 ≤ n ∧ n ≤ 57 then some (n + 4)
  else if c = '-' then some 62
  else if c = '_' then some 63 else none

theorem digitValue_digitChar {n : ℕ} (h : n < 64) : digitValue (digitChar n) = some n := by
  interval_cases n <;> decide

/-! ## Bytes -/

/-- `urlsafe_b64encode(...).rstrip("=")`. -/
def encode : List UInt8 → List Char
  | [] => []
  | [a] => [digitChar (a.toNat / 4), digitChar (a.toNat % 4 * 16)]
  | [a, b] => [digitChar (a.toNat / 4), digitChar (a.toNat % 4 * 16 + b.toNat / 16), digitChar (b.toNat % 16 * 4)]
  | a :: b :: c :: rest =>
    digitChar (a.toNat / 4) :: digitChar (a.toNat % 4 * 16 + b.toNat / 16) ::
      digitChar (b.toNat % 16 * 4 + c.toNat / 64) :: digitChar (c.toNat % 64) :: encode rest

/-- `b64decode`, of a text that is padded first. -/
def decode : List Char → Option (List UInt8)
  | [] => some []
  | [_] => none
  | [w, x] => do
    let w ← digitValue w
    let x ← digitValue x
    return [.ofNat (w * 4 + x / 16)]
  | [w, x, y] => do
    let w ← digitValue w
    let x ← digitValue x
    let y ← digitValue y
    return [.ofNat (w * 4 + x / 16), .ofNat (x % 16 * 16 + y / 4)]
  | w :: x :: y :: z :: rest => do
    let w ← digitValue w
    let x ← digitValue x
    let y ← digitValue y
    let z ← digitValue z
    let rest ← decode rest
    return .ofNat (w * 4 + x / 16) :: .ofNat (x % 16 * 16 + y / 4) :: .ofNat (y % 4 * 64 + z) :: rest

/-- A byte from its bits. -/
theorem ofNat_eq {n : ℕ} {a : UInt8} (h : n = a.toNat) : UInt8.ofNat n = a := by
  rw [h, UInt8.ofNat_toNat]

/-- **What is written is read.** -/
theorem decode_encode (bytes : List UInt8) : decode (encode bytes) = some bytes := by
  induction bytes using encode.induct with
  | case1 => rfl
  | case2 a =>
    have ha := a.toNat_lt
    rw [encode, decode, digitValue_digitChar (by omega), digitValue_digitChar (by omega)]
    simp only [Option.bind_eq_bind, Option.bind_some, Option.pure_def]
    rw [ofNat_eq (a := a) (by omega)]
  | case3 a b =>
    have ha := a.toNat_lt
    have hb := b.toNat_lt
    rw [encode, decode, digitValue_digitChar (by omega), digitValue_digitChar (by omega),
      digitValue_digitChar (by omega)]
    simp only [Option.bind_eq_bind, Option.bind_some, Option.pure_def]
    rw [ofNat_eq (a := a) (by omega), ofNat_eq (a := b) (by omega)]
  | case4 a b c rest ih =>
    have ha := a.toNat_lt
    have hb := b.toNat_lt
    have hc := c.toNat_lt
    rw [encode, decode, digitValue_digitChar (by omega), digitValue_digitChar (by omega),
      digitValue_digitChar (by omega), digitValue_digitChar (by omega), ih]
    simp only [Option.bind_eq_bind, Option.bind_some, Option.pure_def]
    rw [ofNat_eq (a := a) (by omega), ofNat_eq (a := b) (by omega), ofNat_eq (a := c) (by omega)]

theorem encode_injective : Function.Injective encode := fun s t h => by
  have hs := decode_encode s
  rw [h, decode_encode] at hs
  exact (Option.some.inj hs).symm

/-- A text has more characters than it is decoded to bytes. -/
theorem length_le_of_decode {text : List Char} {bytes : List UInt8} (h : decode text = some bytes) :
    bytes.length ≤ text.length := by
  induction text using decode.induct generalizing bytes with
  | case1 =>
    obtain rfl := Option.some.inj h
    exact le_rfl
  | case2 w => exact absurd h (by simp [decode])
  | case3 w x =>
    simp only [decode, Option.bind_eq_bind, Option.bind_eq_some_iff, Option.pure_def, Option.some.injEq] at h
    obtain ⟨_, -, _, -, rfl⟩ := h
    exact Nat.le_add_left 1 1
  | case4 w x y =>
    simp only [decode, Option.bind_eq_bind, Option.bind_eq_some_iff, Option.pure_def, Option.some.injEq] at h
    obtain ⟨_, -, _, -, _, -, rfl⟩ := h
    exact Nat.le_add_left 2 1
  | case5 w x y z rest ih =>
    simp only [decode, Option.bind_eq_bind, Option.bind_eq_some_iff, Option.pure_def, Option.some.injEq] at h
    obtain ⟨_, -, _, -, _, -, _, -, bytes, hrest, rfl⟩ := h
    have hle := ih hrest
    simp only [List.length_cons]
    omega

/-! ## Characters -/

/-- A text of digits alone. -/
def AllDigits (text : List Char) : Prop := (text.all fun c => (digitValue c).isSome) = true

instance (text : List Char) : Decidable (AllDigits text) := inferInstanceAs (Decidable (_ = _))

end Base64

end Aipcs
