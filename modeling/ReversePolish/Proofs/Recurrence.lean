/-
  The recurrence of the Fibonacci numbers in float arithmetic.

  * `Number.monotone_extent_fibonacci`: the members grow, and `Number.nonNegative_fibonacci`:
    they are numbers from zero on or infinite;
  * `Number.isNatural_fibonacci`: the members up to `2^53` are exact;
  * `Number.fibonacci_eq_infinity`: the members beyond the last index are infinite;
  * `Number.iterate_slide`: what a loop over pairs of consecutive members computes;
  * `Number.fibonacci_recurs`: all of this for every member.
-/
import Mathlib.Order.Monotone.Basic
import ReversePolish.Proofs.Extent
import ReversePolish.Proofs.Fibonacci
import ReversePolish.Proofs.Indices

namespace ReversePolish.Number

variable {x : Float} {m n : ℕ}

/-! ## Members -/

theorem IsNatural.nonNegative (h : IsNatural x n) : NonNegative x :=
  .finite h.isFinite (h.toRat_eq ▸ Nat.cast_nonneg n)

theorem nonNegative_fibonacci (n : ℕ) : NonNegative (fibonacci n) := by
  induction n using Nat.twoStepInduction with
  | zero => exact isNatural_zero.nonNegative
  | one => exact isNatural_one.nonNegative
  | more n ih ih' =>
    rw [fibonacci_add_two]
    exact ih.add ih'

/-- **The members grow**, whether they are rounded or not. -/
theorem monotone_extent_fibonacci : Monotone fun n => extent (fibonacci n) := by
  refine monotone_nat_of_le_succ fun n => ?_
  cases n with
  | zero => exact (isNatural_zero.nonNegative.le_iff isNatural_one.nonNegative).1 (by decide)
  | succ n =>
    rw [fibonacci_add_two]
    exact (nonNegative_fibonacci n).extent_le_add (nonNegative_fibonacci (n + 1))

theorem fibonacci_le_fibonacci (h : m ≤ n) : fibonacci m ≤ fibonacci n :=
  ((nonNegative_fibonacci m).le_iff (nonNegative_fibonacci n)).2 (monotone_extent_fibonacci h)

/-- **The members up to `2^53`** are exact. -/
theorem isNatural_fibonacci (hn : Nat.fib n ≤ 2 ^ 53) : IsNatural (fibonacci n) (Nat.fib n) := by
  induction n using Nat.twoStepInduction with
  | zero => exact isNatural_zero
  | one => exact isNatural_one
  | more n ih ih' =>
    rw [Nat.fib_add_two] at hn ⊢
    rw [fibonacci_add_two]
    exact (ih (by omega)).add (ih' (by omega)) hn

theorem fibonacci_eq_ofIndex (hn : Nat.fib n ≤ 2 ^ 53) : fibonacci n = ofIndex (Nat.fib n) := by
  rcases n.eq_zero_or_pos with rfl | hpos
  · rfl
  · exact (isNatural_fibonacci hn).eq (isNatural_ofIndex hn) (Nat.fib_pos.2 hpos)

/-- The first member out of range: the roundings before it do not make up for it. -/
theorem fibonacci_succ_eq_infinity : fibonacci (maxFibonacciIndex + 1) = infinity := by
  have hx : Reaches 1475 (fibonacci 1475) := fibonacci_reaches (by decide)
  have hy : Reaches 1476 (fibonacci 1476) := fibonacci_reaches (by decide)
  have hfib : (2 ^ 1024 : ℚ) ≤ 7 / 8 * Nat.fib 1477 := by
    have hle : 2 ^ 1024 * 8 ≤ 7 * Nat.fib 1477 := by decide +kernel
    rw [div_mul_eq_mul_div, le_div_iff₀ (by decide)]
    exact_mod_cast hle
  have hdigits : (7 / 8 : ℚ) ≤ 1 - 2 ^ (-42 : ℤ) := by norm_num
  have hlimit : limit ≤ toRat (fibonacci 1475) + toRat (fibonacci 1476) :=
    calc limit ≤ 2 ^ (1024 : ℤ) := limit_le
      _ ≤ 7 / 8 * Nat.fib 1477 := hfib
      _ ≤ (1 - 2 ^ (-42 : ℤ)) * Nat.fib 1477 :=
        mul_le_mul_of_nonneg_right hdigits (Nat.cast_nonneg _)
      _ ≤ toRat (fibonacci 1475) + toRat (fibonacci 1476) :=
        (hx.approximates_add hy).mul_le (by decide) (Nat.cast_nonneg _)
  have hnext : fibonacci (maxFibonacciIndex + 1) = fibonacci 1475 + fibonacci 1476 :=
    fibonacci_add_two 1475
  rw [hnext]
  exact add_eq_infinity hx.isFinite hy.isFinite hlimit

theorem fibonacci_eq_infinity (hn : maxFibonacciIndex < n) : fibonacci n = infinity := by
  have hle : extent (fibonacci (maxFibonacciIndex + 1)) ≤ extent (fibonacci n) :=
    monotone_extent_fibonacci (Nat.succ_le_of_lt hn)
  rw [fibonacci_succ_eq_infinity, extent_infinity, top_le_iff] at hle
  refine (nonNegative_fibonacci n).eq_infinity (Bool.eq_false_iff.2 fun hfinite => ?_)
  rw [extent_of_isFinite hfinite] at hle
  exact WithTop.coe_ne_top hle

/-! ## The loop -/

/-- The next two consecutive members. -/
def slide (pair : Float × Float) : Float × Float :=
  (pair.2, pair.1 + pair.2)

/-- **The invariant**: after `n` rounds, the pair are the members `n` and `n + 1`. -/
theorem iterate_slide (n : ℕ) : slide^[n] (0.0, 1.0) = (fibonacci n, fibonacci (n + 1)) := by
  induction n with
  | zero => rfl
  | succ n ih => rw [Function.iterate_succ_apply', ih, slide, ← fibonacci_add_two]

/-- A loop with a counter from `1` on, below `n`.  The result is the second of the pair,
    but the first one, if `n` is `0`. -/
def looped (n : ℕ) : Float :=
  if n = 0 then 0.0
  else ((List.range' 1 (n - 1)).foldl (fun pair _ => slide pair) (0.0, 1.0)).2

theorem looped_eq (n : ℕ) : looped n = fibonacci n := by
  cases n with
  | zero => rfl
  | succ n =>
    rw [looped, if_neg n.succ_ne_zero, List.foldl_const, List.length_range', Nat.add_sub_cancel,
      iterate_slide]

/-- What is known of the `n`-th member. -/
structure Recurs (n : ℕ) : Prop where
  looped_eq : looped n = fibonacci n
  add_two : fibonacci (n + 2) = fibonacci n + fibonacci (n + 1)
  /-- As long as the number is at most `2^53`, it is exact, and the float that the number
      is converted to. -/
  isNatural : Nat.fib n ≤ 2 ^ 53 → IsNatural (fibonacci n) (Nat.fib n) ∧
    fibonacci n = ofIndex (Nat.fib n)
  monotone : ∀ m ≤ n, fibonacci m ≤ fibonacci n
  isNaN_eq : (fibonacci n).isNaN = false
  isFinite : n ≤ maxFibonacciIndex → (fibonacci n).isFinite = true
  infinite : maxFibonacciIndex < n → fibonacci n = infinity

theorem recurs (n : ℕ) : Recurs n where
  looped_eq := looped_eq n
  add_two := fibonacci_add_two n
  isNatural hn := ⟨isNatural_fibonacci hn, fibonacci_eq_ofIndex hn⟩
  monotone _ hm := fibonacci_le_fibonacci hm
  isNaN_eq := (nonNegative_fibonacci n).isNaN_eq
  isFinite hn := (fibonacci_reaches hn).isFinite
  infinite := fibonacci_eq_infinity

/-- **The Fibonacci numbers** are summed up in float arithmetic, from `0` and `1`: each is
    the rounded sum of the two before.  They are exact up to `2^53`, they never get
    smaller, and no member is NaN, also when they are infinite. -/
theorem fibonacci_recurs : fibonacci 0 = 0.0 ∧ fibonacci 1 = 1.0 ∧ ∀ n, Recurs n :=
  ⟨fibonacci_zero, fibonacci_one, recurs⟩

/-- Beyond `2^53`, sums are rounded. -/
example : fibonacci 79 = ofIndex 14472334024676220 ∧ Nat.fib 79 = 14472334024676221 := by
  decide +kernel

end ReversePolish.Number
