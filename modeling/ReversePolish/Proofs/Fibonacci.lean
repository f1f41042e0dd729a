/-
  The range of the Fibonacci numbers in float arithmetic.

  * `Number.Reaches`: a finite float that is a Fibonacci number, up to roundings;
  * `Number.fibonacci_reaches`: the members up to the last index are such floats.
-/
import Mathlib.Data.Nat.Fib.Basic
import ReversePolish.Number.Fibonacci
import ReversePolish.Proofs.Accuracy

namespace ReversePolish.Number

variable {x y : Float} {n : ℕ}

/-- The last Fibonacci number is less than three quarters of what is out of range. -/
theorem four_mul_fib_lt (hn : n ≤ maxFibonacciIndex) : 4 * (Nat.fib n : ℚ) < 3 * limit := by
  have hlast : 4 * Nat.fib maxFibonacciIndex + 3 * 2 ^ 970 < 3 * 2 ^ 1024 := by decide +kernel
  have hlt : 4 * Nat.fib n + 3 * 2 ^ 970 < 3 * 2 ^ 1024 :=
    (Nat.add_le_add_right (Nat.mul_le_mul_left 4 (Nat.fib_mono hn)) _).trans_lt hlast
  rw [limit, mul_sub]
  exact lt_sub_iff_add_lt.2 (by exact_mod_cast hlt)

/-- The float is finite, and the `n`-th Fibonacci number up to `n` roundings. -/
structure Reaches (n : ℕ) (x : Float) : Prop where
  isFinite : x.isFinite = true
  approximates : Approximates n (Nat.fib n) (toRat x)

/-- The exact sum of two consecutive members. -/
theorem Reaches.approximates_add (hx : Reaches n x) (hy : Reaches (n + 1) y) :
    Approximates (n + 1) (Nat.fib (n + 2)) (toRat x + toRat y) := by
  have hx' := hx.approximates.mono n.le_succ (Nat.cast_nonneg _)
    (hx.approximates.nonneg (Nat.cast_nonneg _))
  rw [Nat.fib_add_two, Nat.cast_add]
  exact hx'.add hy.approximates

/-- A sum is rounded once more than its summands. -/
theorem Reaches.add (hx : Reaches n x) (hy : Reaches (n + 1) y)
    (hn : n + 2 ≤ maxFibonacciIndex) : Reaches (n + 2) (x + y) := by
  have hfew : n + 1 ≤ 2 ^ 11 := (Nat.le_succ _).trans (hn.trans (by decide))
  have hpos : (1 : ℚ) ≤ Nat.fib (n + 2) := by exact_mod_cast Nat.fib_pos.2 (Nat.succ_pos _)
  have hlast := four_mul_fib_lt hn
  have hsum := hx.approximates_add hy
  have hnonneg := hsum.nonneg (Nat.cast_nonneg _)
  have hdigits : (3 / 4 : ℚ) ≤ 1 - 2 ^ (-42 : ℤ) := by norm_num
  have hlow : 3 / 4 * (Nat.fib (n + 2) : ℚ) ≤ toRat x + toRat y :=
    (mul_le_mul_of_nonneg_right hdigits (Nat.cast_nonneg _)).trans
      (hsum.mul_le hfew (Nat.cast_nonneg _))
  have hhigh : 3 / 4 * (toRat x + toRat y) ≤ Nat.fib (n + 2) :=
    (mul_le_mul_of_nonneg_right hdigits hnonneg).trans (hsum.mul_ge hfew hnonneg)
  have hlimit : toRat x + toRat y < limit := by linarith
  have hleast : 2 ^ (-1022 : ℤ) ≤ toRat x + toRat y :=
    calc (2 : ℚ) ^ (-1022 : ℤ) ≤ 2 ^ (-1 : ℤ) := zpow_le_zpow_right₀ (by decide) (by decide)
      _ ≤ 3 / 4 := by norm_num
      _ ≤ 3 / 4 * Nat.fib (n + 2) := by linarith
      _ ≤ toRat x + toRat y := hlow
  have hnearest := nearest_add hx.isFinite hy.isFinite (by rwa [abs_of_nonneg hnonneg])
  exact ⟨hnearest.isFinite, hsum.trans (hnearest.approximates hleast hlimit)⟩

/-- **The Fibonacci numbers** up to the last index are in the range of floats. -/
theorem fibonacci_reaches (hn : n ≤ maxFibonacciIndex) : Reaches n (fibonacci n) := by
  induction n using Nat.twoStepInduction with
  | zero =>
    have hzero : toRat (fibonacci 0) = (Nat.fib 0 : ℚ) := Nat.cast_zero.symm
    refine ⟨rfl, ?_⟩
    rw [hzero]
    exact approximates_self _
  | one =>
    have hone : toRat (fibonacci 1) = (Nat.fib 1 : ℚ) := toRat_one.trans Nat.cast_one.symm
    have hself := approximates_self (Nat.fib 1 : ℚ)
    refine ⟨rfl, ?_⟩
    rw [hone]
    exact hself.mono (Nat.zero_le 1) (Nat.cast_nonneg _) (Nat.cast_nonneg _)
  | more n ih ih' =>
    rw [fibonacci_add_two]
    exact (ih (by omega)).add (ih' (by omega)) hn

end ReversePolish.Number
