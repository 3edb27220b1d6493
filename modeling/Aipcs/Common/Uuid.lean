import Aipcs.Common.Sha256
import Mathlib.Data.List.Lex
import Mathlib.Data.String.Basic

/-!
# Identifiers and instants

The program's ids are the nonzero UUIDs; it orders them by their
hexadecimal text, which is the order of the integers. Its instants are
UTC datetimes, counted in microseconds since year 1.
-/

namespace Aipcs

/-- A `UUID` other than the zero one, which every contract refuses. -/
structure Uuid where
  int : ℕ
  pos : 0 < int
  lt : int < 2 ^ 128
deriving DecidableEq

namespace Uuid

/-- `UUID.hex`. -/
def hex (u : Uuid) : String := String.ofList (Sha256.hexDigits u.int 32)

/-- `str(uuid)`. -/
def text (u : Uuid) : String :=
  let h := Sha256.hexDigits u.int 32
  String.ofList (h.take 8 ++ '-' :: (h.drop 8).take 4 ++ '-' :: (h.drop 12).take 4 ++
    '-' :: (h.drop 16).take 4 ++ '-' :: h.drop 20)

theorem digitChar_inj {a b : ℕ} (ha : a < 16) (hb : b < 16) (h : a.digitChar = b.digitChar) :
    a = b := by
  revert h
  interval_cases a <;> interval_cases b <;> decide

/-- Numbers of so many digits are told apart by them. -/
theorem hexDigits_inj {k : ℕ} : ∀ {m n : ℕ}, m < 16 ^ k → n < 16 ^ k →
    Sha256.hexDigits m k = Sha256.hexDigits n k → m = n := by
  induction k with
  | zero =>
    intro m n hm hn _
    omega
  | succ k ih =>
    intro m n hm hn h
    rw [Sha256.hexDigits, Sha256.hexDigits] at h
    obtain ⟨hinit, hlast⟩ := List.append_inj' h rfl
    have hdiv : m / 16 = n / 16 := ih (by omega) (by omega) hinit
    have hmod : m % 16 = n % 16 :=
      digitChar_inj (Nat.mod_lt _ (by omega)) (Nat.mod_lt _ (by omega)) (List.singleton_inj.1 hlast)
    omega

theorem int_injective : Function.Injective int := by
  rintro ⟨m, _, _⟩ ⟨n, _, _⟩ rfl
  rfl

theorem hex_injective : Function.Injective hex := by
  intro u v h
  have hint : u.int = v.int :=
    hexDigits_inj (k := 32) (by simpa using u.lt) (by simpa using v.lt) (String.ofList_injective h)
  cases u
  cases v
  simp only at hint
  subst hint
  rfl

/-- What differs in a first part is told apart by it. -/
theorem append_lt_append {a b x y : List Char} (hlength : a.length = b.length) (h : a < b) : a ++ x < b ++ y := by
  rw [List.lt_iff_exists] at h ⊢
  rcases h with ⟨-, hlt⟩ | ⟨i, hi, hi', hsame, hlt⟩
  · omega
  · refine .inr ⟨i, by simp; omega, by simp; omega, fun j hj => ?_, ?_⟩
    · rw [List.getElem_append_left (by omega), List.getElem_append_left (by omega)]
      exact hsame j hj
    · rwa [List.getElem_append_left hi, List.getElem_append_left hi']

theorem digitChar_lt {a b : ℕ} (hb : b < 16) (h : a < b) : a.digitChar < b.digitChar := by
  interval_cases b <;> interval_cases a <;> decide

theorem hexDigits_lt {k : ℕ} : ∀ {m n : ℕ}, n < 16 ^ k → m < n → Sha256.hexDigits m k < Sha256.hexDigits n k := by
  induction k with
  | zero =>
    intro m n hn h
    omega
  | succ k ih =>
    intro m n hn h
    rw [Sha256.hexDigits, Sha256.hexDigits]
    by_cases hdiv : m / 16 = n / 16
    · rw [hdiv]
      have hmod : m % 16 < n % 16 := by omega
      have hlt := digitChar_lt (Nat.mod_lt _ (by omega)) hmod
      refine List.lt_iff_exists.2 (.inr ⟨(Sha256.hexDigits (n / 16) k).length, by simp, by simp, fun j hj => ?_, ?_⟩)
      · rw [List.getElem_append_left hj, List.getElem_append_left hj]
      · simpa using hlt
    · exact append_lt_append (by rw [length_hexDigits, length_hexDigits]) (ih (by omega) (by omega))

/-- **Ids stand in the order of their texts.** -/
theorem hex_le_iff {u v : Uuid} : u.hex ≤ v.hex ↔ u.int ≤ v.int := by
  have hlt : ∀ u v : Uuid, u.int < v.int → u.hex < v.hex := fun u v h => by
    rw [String.lt_iff_toList_lt, hex, hex, String.toList_ofList, String.toList_ofList]
    exact hexDigits_lt (by simpa using v.lt) h
  constructor
  · intro h
    by_contra hle
    exact absurd h (not_le_of_gt (hlt v u (by omega)))
  · intro h
    rcases Nat.lt_or_eq_of_le h with h | h
    · exact le_of_lt (hlt u v h)
    · rw [int_injective h]

end Uuid

/-- A UTC `datetime` of the years 1 to 9999, in microseconds. -/
structure Instant where
  micros : ℕ
  lt : micros < 315537897600000000
deriving DecidableEq

namespace Instant

instance : Inhabited Instant := ⟨⟨0, by decide⟩⟩

theorem le_self (t : Instant) : t.micros ≤ t.micros := Nat.le_refl _

/-- Datetimes are compared as the instants they are. -/
def before (a b : Instant) : Prop := a.micros < b.micros

instance (a b : Instant) : Decidable (a.before b) := Nat.decLt _ _

end Instant

end Aipcs
