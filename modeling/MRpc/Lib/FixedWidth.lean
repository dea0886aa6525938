import Mathlib.Data.List.Basic
import Mathlib.Tactic.Common
import Mathlib.Tactic.Linarith

/-!
# Fixed-width integers and big-endian words

C integers of a fixed width are read as integers together with the conversion that every cast
or narrowing applies: `int32` and `int64` for the signed types, `uint32` and `uint64` for the
unsigned ones. A four-byte big-endian word is written by `be32` and read by `beNat`; `beNat`
reads a missing byte as zero, as a word that is initialised with zero and partly overwritten.

## Main definitions

* `FixedWidth.int32`, `FixedWidth.int64`, `FixedWidth.uint32`, `FixedWidth.uint64`: the
  conversions.
* `FixedWidth.be32`, `FixedWidth.beNat`: big-endian words.

## Main results

* `FixedWidth.beNat_be32_append`: reading undoes writing.
-/

namespace FixedWidth

/-- A string of bytes. -/
abbrev Bytes := List UInt8

/-- The address of an object on the heap. -/
abbrev Ptr := Nat

/-! ### Conversions

The conversions are irreducible: unification must not compute with their large literals. -/

/-- Conversion to a signed 32-bit integer. -/
@[irreducible] def int32 (z : Int) : Int := (z + 2147483648) % 4294967296 - 2147483648

/-- Conversion to an unsigned 32-bit integer. -/
@[irreducible] def uint32 (z : Int) : Nat := (z % 4294967296).toNat

/-- Conversion to a signed 64-bit integer. -/
@[irreducible] def int64 (z : Int) : Int :=
  (z + 9223372036854775808) % 18446744073709551616 - 9223372036854775808

/-- Conversion to an unsigned 64-bit integer. -/
@[irreducible] def uint64 (z : Int) : Nat := (z % 18446744073709551616).toNat

theorem int32_of_bounds {z : Int} (hlo : -2147483648 ≤ z) (hhi : z < 2147483648) :
    int32 z = z := by
  simp only [int32]
  omega

theorem uint32_of_lt {z : Int} (hlo : 0 ≤ z) (hhi : z < 4294967296) : (uint32 z : Int) = z := by
  simp only [uint32]
  omega

theorem uint32_natCast_of_lt {n : Nat} (h : n < 4294967296) : uint32 n = n := by
  simp only [uint32]
  omega

theorem uint64_natCast_of_lt {n : Nat} (h : n < 18446744073709551616) : uint64 n = n := by
  simp only [uint64]
  omega

/-- Unsigned arithmetic may be reduced at any step. -/
theorem uint64_add (z y : Int) : uint64 (uint64 z + y) = uint64 (z + y) := by
  simp only [uint64]
  omega

theorem uint32_lt (z : Int) : uint32 z < 4294967296 := by
  simp only [uint32]
  omega

@[simp] theorem uint32_int32 (z : Int) : uint32 (int32 z) = uint32 z := by
  simp only [uint32, int32]
  omega

/-- The two readings of a 32-bit word determine each other. -/
theorem int32_eq_iff {a b : Int} : int32 a = int32 b ↔ uint32 a = uint32 b := by
  simp only [uint32, int32]
  omega

/-- A number that fits in 64 signed bits survives the way through an unsigned 64-bit field. -/
theorem int64_uint64 {z : Int} (hlo : -9223372036854775808 ≤ z)
    (hhi : z < 9223372036854775808) : int64 (uint64 z) = z := by
  simp only [int64, uint64]
  omega

/-! ### Big-endian words -/

/-- The four bytes of `n`, most significant first. -/
def be32 (n : Nat) : Bytes :=
  [UInt8.ofNat (n / 16777216), UInt8.ofNat (n / 65536), UInt8.ofNat (n / 256), UInt8.ofNat n]

/-- The number of the first four bytes, most significant first; missing bytes are zero. -/
def beNat (b : Bytes) : Nat :=
  (b.getD 0 0).toNat * 16777216 + (b.getD 1 0).toNat * 65536 +
    (b.getD 2 0).toNat * 256 + (b.getD 3 0).toNat

@[simp] theorem length_be32 (n : Nat) : (be32 n).length = 4 := rfl

theorem beNat_lt (b : Bytes) : beNat b < 4294967296 := by
  have h0 := (b.getD 0 0).toNat_lt
  have h1 := (b.getD 1 0).toNat_lt
  have h2 := (b.getD 2 0).toNat_lt
  have h3 := (b.getD 3 0).toNat_lt
  simp only [beNat]
  omega

theorem beNat_be32_append {n : Nat} (h : n < 4294967296) (rest : Bytes) :
    beNat (be32 n ++ rest) = n := by
  simp only [beNat, be32, List.cons_append, List.nil_append, List.getD_cons_zero,
    List.getD_cons_succ, UInt8.toNat_ofNat']
  omega

theorem beNat_be32 {n : Nat} (h : n < 4294967296) : beNat (be32 n) = n := by
  simpa using beNat_be32_append h []

/-- Only the first four bytes are read. -/
theorem beNat_take (b : Bytes) : beNat (b.take 4) = beNat b := by
  match b with
  | [] => rfl
  | [_] => rfl
  | [_, _] => rfl
  | [_, _, _] => rfl
  | _ :: _ :: _ :: _ :: _ => rfl

theorem beNat_append {b : Bytes} (h : 4 ≤ b.length) (rest : Bytes) :
    beNat (b ++ rest) = beNat b := by
  rw [← beNat_take, List.take_append_of_le_length h, beNat_take]

/-- A word of four bytes is determined by its number. -/
theorem beNat_injective {a b : Bytes} (ha : a.length = 4) (hb : b.length = 4)
    (h : beNat a = beNat b) : a = b := by
  obtain ⟨a0, a1, a2, a3, rfl⟩ := List.length_eq_four.mp ha
  obtain ⟨b0, b1, b2, b3, rfl⟩ := List.length_eq_four.mp hb
  have ha1 := a1.toNat_lt
  have ha2 := a2.toNat_lt
  have ha3 := a3.toNat_lt
  have hb1 := b1.toNat_lt
  have hb2 := b2.toNat_lt
  have hb3 := b3.toNat_lt
  simp only [beNat, List.getD_cons_zero, List.getD_cons_succ] at h
  simp only [List.cons.injEq, ← UInt8.toNat_inj, and_true]
  omega

end FixedWidth
