import LocOS.Lib.Text
import Mathlib.Data.List.TakeWhile

/-!
# Decimal — integers as `printf` prints and `atoi` reads them

`atoi` skips white space, reads a sign and the longest run of digits, and
makes an `int` of the value. Of an `int` that `printf` printed it makes the
same `int`.
-/

namespace Text

/-- `printf("%d", n)`. -/
def printDecimal (n : Int) : List Char :=
  if n < 0 then '-' :: Nat.toDigits 10 n.natAbs else Nat.toDigits 10 n.natAbs

/-- `strtol(text, NULL, 10)`, for a `long` of 64 bits: a value out of its range
becomes the closest one within. -/
def strtol (text : List Char) : Int :=
  let signed := scanSign (text.dropWhile isSpace)
  let value : Int := Nat.ofDigitChars 10 (signed.2.takeWhile Char.isDigit) 0
  if signed.1 then max (-2 ^ 63) (-value) else min (2 ^ 63 - 1) value

/-- `atoi`, for an `int` of 32 bits: the lower half of the `long`. -/
def atoi (text : List Char) : Int := (strtol text).bmod (2 ^ 32)

theorem atoi_upper (text : List Char) : atoi text < 2 ^ 31 := by
  have h : atoi text < ((2 ^ 32 : Nat) + 1) / 2 := Int.bmod_lt (by decide)
  omega

/-! ## Reading what was printed -/

theorem takeWhile_toDigits (n : Nat) :
    (Nat.toDigits 10 n).takeWhile Char.isDigit = Nat.toDigits 10 n :=
  List.takeWhile_eq_self_iff.2 fun _ hc => Nat.isDigit_of_mem_toDigits (by decide) (by decide) hc

/-- A digit is neither white space nor a sign. -/
theorem digit_plain {c : Char} (h : c.isDigit = true) :
    isSpace c = false ∧ c ≠ '-' ∧ c ≠ '+' := by
  have hrange : 48 ≤ c.toNat ∧ c.toNat ≤ 57 := by
    simpa [Char.isDigit, UInt32.le_iff_toNat_le] using h
  refine ⟨?_, ?_, ?_⟩
  · have hspace : ¬ (c.toNat = 32 ∨ (9 ≤ c.toNat ∧ c.toNat ≤ 13)) := by omega
    exact decide_eq_false hspace
  · rintro rfl
    exact absurd h (by decide)
  · rintro rfl
    exact absurd h (by decide)

theorem strtol_digits (n : Nat) : strtol (Nat.toDigits 10 n) = min (2 ^ 63 - 1) (n : Int) := by
  have hdigits := takeWhile_toDigits n
  have hvalue : Nat.ofDigitChars 10 (Nat.toDigits 10 n) 0 = n := Nat.ofDigitChars_ten_toDigits
  have hall : ∀ c ∈ Nat.toDigits 10 n, c.isDigit = true := fun _ hc =>
    Nat.isDigit_of_mem_toDigits (by decide) (by decide) hc
  revert hdigits hvalue hall
  generalize Nat.toDigits 10 n = ds
  cases ds with
  | nil =>
      rintro - hvalue -
      rw [← hvalue]
      decide
  | cons c cs =>
      intro hdigits hvalue hall
      obtain ⟨hspace, hminus, hplus⟩ := digit_plain (hall c (List.mem_cons_self ..))
      rw [strtol, List.dropWhile_cons_of_neg (by simp [hspace]), scanSign_of_ne hminus hplus,
        hdigits, hvalue]
      rfl

theorem strtol_negative (n : Nat) :
    strtol ('-' :: Nat.toDigits 10 n) = max (-2 ^ 63) (-(n : Int)) := by
  rw [strtol, List.dropWhile_cons_of_neg (by decide)]
  simp only [scanSign, takeWhile_toDigits, if_true]
  rw [Nat.ofDigitChars_ten_toDigits]

/-- An `int` survives being printed and read. -/
theorem atoi_printDecimal {n : Int} (hlo : -2 ^ 31 ≤ n) (hhi : n < 2 ^ 31) :
    atoi (printDecimal n) = n := by
  have hread : strtol (printDecimal n) = n := by
    unfold printDecimal
    split
    · rw [strtol_negative]
      omega
    · rw [strtol_digits]
      omega
  rw [atoi, hread]
  exact Int.bmod_eq_of_le (by omega) (by omega)

example : atoi [' ', '-', '1', '2', 'x'] = -12 := by decide

end Text
