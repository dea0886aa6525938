import MRpc.Lib.FixedWidth

/-!
# Base-128 varints and little-endian words

A number is written in groups of seven bits, least significant first; every byte but the last has
its high bit set. Reading stops after a bounded number of bytes.

## Main definitions

* `Varint.encode`, `Varint.decode`: varints.
* `Varint.Encodes`: the strings of bytes that are a varint of a number.
* `Varint.le64`, `Varint.leNat`: eight-byte little-endian words.

## Main results

* `Varint.decode_encode`, `Varint.leNat_le64`: reading undoes writing.
* `Varint.decode_eq_some_iff`: reading accepts varints and nothing else.
* `Varint.length_encode`: the size of a varint by the size of its number.
-/

namespace Varint

open FixedWidth

/-- The varint of a number below `128 ^ k`, in at most `k` bytes. -/
def encode : Nat → Nat → Bytes
  | 0, _ => []
  | k + 1, n =>
    if n < 128 then [UInt8.ofNat n] else UInt8.ofNat (n % 128 + 128) :: encode k (n / 128)

/-- The number of a varint of at most `k` bytes, and what follows it. -/
def decode : Nat → Bytes → Option (Nat × Bytes)
  | 0, _ => none
  | _ + 1, [] => none
  | k + 1, b :: bs =>
    if b.toNat < 128 then some (b.toNat, bs)
    else match decode k bs with
      | none => none
      | some (n, rest) => some (b.toNat - 128 + 128 * n, rest)

theorem decode_encode {k j n : Nat} (hn : n < 128 ^ k) (hk : 0 < k) (hkj : k ≤ j) (rest : Bytes) :
    decode j (encode k n ++ rest) = some (n, rest) := by
  induction k generalizing j n with
  | zero => exact absurd hk (Nat.lt_irrefl 0)
  | succ k ih =>
    obtain ⟨j, rfl⟩ : ∃ i, j = i + 1 := ⟨j - 1, by omega⟩
    rw [encode]
    split_ifs with hsmall
    · have hb : (UInt8.ofNat n).toNat = n := by
        rw [UInt8.toNat_ofNat']
        omega
      rw [List.singleton_append, decode, if_pos (by omega), hb]
    · have hb : (UInt8.ofNat (n % 128 + 128)).toNat = n % 128 + 128 := by
        rw [UInt8.toNat_ofNat']
        omega
      have hdiv : n / 128 < 128 ^ k := Nat.div_lt_of_lt_mul (by rwa [pow_succ, mul_comm] at hn)
      have hkpos : 0 < k := by
        rcases k with _ | k
        · rw [pow_zero] at hdiv
          omega
        · omega
      rw [List.cons_append, decode, if_neg (by omega), ih hdiv hkpos (by omega), hb]
      have hsum : n % 128 + 128 - 128 + 128 * (n / 128) = n := by omega
      simp only [hsum]

/-! ### What a varint is -/

/-- `bytes` is a varint of `n`: every byte but the last has its high bit set. It need not be the
shortest one. -/
inductive Encodes : Bytes → Nat → Prop
  | last {b : UInt8} (h : b.toNat < 128) : Encodes [b] b.toNat
  | more {b : UInt8} {bytes : Bytes} {n : Nat} (h : 128 ≤ b.toNat) (hn : Encodes bytes n) :
      Encodes (b :: bytes) (b.toNat - 128 + 128 * n)

theorem Encodes.length_pos {bytes : Bytes} {n : Nat} (h : Encodes bytes n) : 0 < bytes.length := by
  cases h <;> simp

/-- Reading accepts the varints that are short enough, and nothing else. -/
theorem decode_eq_some_iff {k n : Nat} {input rest : Bytes} :
    decode k input = some (n, rest) ↔
      ∃ bytes, Encodes bytes n ∧ bytes.length ≤ k ∧ input = bytes ++ rest := by
  induction k generalizing n input with
  | zero =>
    refine iff_of_false (by simp [decode]) ?_
    rintro ⟨bytes, h, hle, -⟩
    exact absurd h.length_pos (by omega)
  | succ k ih =>
    rcases input with _ | ⟨b, bs⟩
    · refine iff_of_false (by simp [decode]) ?_
      rintro ⟨bytes, h, -, heq⟩
      obtain ⟨rfl, -⟩ := List.append_eq_nil_iff.mp heq.symm
      exact absurd h.length_pos (by simp)
    rw [decode]
    split_ifs with hlast
    · constructor
      · intro h
        obtain ⟨rfl, rfl⟩ := Prod.mk.inj (Option.some.inj h)
        exact ⟨[b], .last hlast, by simp, rfl⟩
      · rintro ⟨bytes, h, -, heq⟩
        cases h with
        | last h =>
          obtain ⟨rfl, rfl⟩ := List.cons.inj heq
          rfl
        | more h hn =>
          obtain ⟨rfl, -⟩ := List.cons.inj heq
          omega
    · constructor
      · intro h
        cases hd : decode k bs with
        | none => simp only [hd] at h; cases h
        | some r =>
          simp only [hd] at h
          obtain ⟨rfl, rfl⟩ := Prod.mk.inj (Option.some.inj h)
          obtain ⟨bytes, hbytes, hle, rfl⟩ := ih.mp hd
          exact ⟨b :: bytes, .more (by omega) hbytes, by simpa using hle, rfl⟩
      · rintro ⟨bytes, h, hle, heq⟩
        cases h with
        | last h =>
          obtain ⟨rfl, -⟩ := List.cons.inj heq
          omega
        | @more b' bytes n h hn =>
          obtain ⟨rfl, hbs⟩ := List.cons.inj heq
          have hd : decode k bs = some (n, rest) := ih.mpr ⟨bytes, hn, by simpa using hle, hbs⟩
          simp only [hd]

/-- The size of the varint of a 32-bit number. -/
def size32 (n : Nat) : Nat :=
  if n < 128 then 1 else if n < 16384 then 2 else if n < 2097152 then 3
  else if n < 268435456 then 4 else 5

theorem length_encode (n : Nat) : (encode 5 n).length = size32 n := by
  simp only [encode, size32]
  split_ifs <;> simp <;> omega

/-! ### Little-endian words -/

/-- The eight bytes of `n`, least significant first. -/
def le64 (n : Nat) : Bytes :=
  [UInt8.ofNat n, UInt8.ofNat (n / 256), UInt8.ofNat (n / 65536), UInt8.ofNat (n / 16777216),
    UInt8.ofNat (n / 4294967296), UInt8.ofNat (n / 1099511627776),
    UInt8.ofNat (n / 281474976710656), UInt8.ofNat (n / 72057594037927936)]

/-- The number of a little-endian word. -/
def leNat : Bytes → Nat
  | [] => 0
  | b :: bs => b.toNat + 256 * leNat bs

@[simp] theorem length_le64 (n : Nat) : (le64 n).length = 8 := rfl

theorem leNat_le64 {n : Nat} (h : n < 18446744073709551616) : leNat (le64 n) = n := by
  simp only [leNat, le64, UInt8.toNat_ofNat']
  omega

end Varint
