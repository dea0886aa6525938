import Mathlib.Data.BitVec

/-!
# Flags in a word

A word of `w` bits as a set of flags, with the operations that programs use on it: a flag is tested,
set and reset by a mask with one bit, and several flags are tested at once by a mask of low bits.

## Main definitions

* `BitFlags.test`, `BitFlags.set`, `BitFlags.reset`: the operations, by masks.

## Main results

* `BitFlags.test_set`, `BitFlags.test_reset`, `BitFlags.test_zero`: what they do to each flag.
* `BitFlags.test_eq_false_of_and_eq_zero`: no flag under a mask that meets none.
-/

namespace BitFlags

variable {w : Nat}

/-- `(x & mask) != 0`. -/
def test (x : BitVec w) (i : Nat) : Bool := x &&& BitVec.twoPow w i != 0#w

/-- `x |= mask`. -/
def set (x : BitVec w) (i : Nat) : BitVec w := x ||| BitVec.twoPow w i

/-- `x &= ~mask`. -/
def reset (x : BitVec w) (i : Nat) : BitVec w := x &&& ~~~ BitVec.twoPow w i

/-- A test reads one bit. -/
theorem test_eq_getLsbD (x : BitVec w) {i : Nat} (hi : i < w) : test x i = x.getLsbD i := by
  have hne : BitVec.twoPow w i ≠ 0#w := by
    intro h
    have hbit := congrArg (fun y => y.getLsbD i) h
    simp [hi] at hbit
  rw [test, BitVec.and_twoPow]
  cases x.getLsbD i with
  | true => simpa using hne
  | false => simp

theorem test_set (x : BitVec w) {i j : Nat} (hi : i < w) (hj : j < w) :
    test (set x i) j = (test x j || decide (i = j)) := by
  rw [test_eq_getLsbD _ hj, test_eq_getLsbD _ hj, set, BitVec.getLsbD_or, BitVec.getLsbD_twoPow]
  simp [hi]

theorem test_reset (x : BitVec w) {i j : Nat} (hi : i < w) (hj : j < w) :
    test (reset x i) j = (test x j && !decide (i = j)) := by
  rw [test_eq_getLsbD _ hj, test_eq_getLsbD _ hj, reset, BitVec.getLsbD_and, BitVec.getLsbD_not,
    BitVec.getLsbD_twoPow]
  simp [hi, hj]

@[simp] theorem test_zero (i : Nat) : test (0#w) i = false := by
  simp [test]

/-- If no flag under the mask of the lowest `n` bits is set, each of them tests false. -/
theorem test_eq_false_of_and_eq_zero {x : BitVec w} {n i : Nat}
    (h : x &&& BitVec.ofNat w (2 ^ n - 1) = 0#w) (hi : i < n) (hw : i < w) : test x i = false := by
  have hbit := congrArg (fun y => y.getLsbD i) h
  rw [test_eq_getLsbD _ hw]
  simp only [BitVec.getLsbD_and, BitVec.getLsbD_ofNat, Nat.testBit_two_pow_sub_one, hi, hw,
    decide_true, Bool.and_true, Nat.zero_testBit, Bool.and_false] at hbit
  exact hbit

end BitFlags
