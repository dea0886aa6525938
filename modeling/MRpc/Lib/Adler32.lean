import MRpc.Lib.FixedWidth

/-!
# The Adler-32 checksum

Two running sums modulo `65521` over a string of bytes, packed into one 32-bit word. A checksum
is continued from the word of an earlier call, so the checksum of a string may be computed
piece by piece: `foldl_adler32` says that the pieces do not matter.

## Main definitions

* `Adler.adler32`: the checksum of a string continued from an earlier word.

## Main results

* `Adler.adler32_append`: continuing over a second string is the checksum of both.
* `Adler.foldl_adler32`: the checksum of a list of pieces is that of their concatenation.
* `Adler.adler32_replace_ne`, `Adler.adler32_swap_ne`: the checksum changes when one byte is
  replaced or two neighbours are exchanged.
-/

namespace Adler

open FixedWidth

/-- The largest prime below `2 ^ 16`. -/
def base : Nat := 65521

/-- One byte taken into the two running sums. -/
def step (s : Nat × Nat) (b : UInt8) : Nat × Nat :=
  ((s.1 + b.toNat) % base, (s.2 + (s.1 + b.toNat) % base) % base)

/-- The two sums of a checksum word, reduced. -/
def unpack (adler : Nat) : Nat × Nat := (adler % 65536 % base, adler / 65536 % base)

/-- The checksum word of two sums. -/
def pack (s : Nat × Nat) : Nat := s.2 * 65536 + s.1

/-- The checksum of a string of bytes, continued from the word `adler`. -/
def adler32 (adler : Nat) (buf : Bytes) : Nat := pack (buf.foldl step (unpack adler))

/-- The word that a checksum starts from. -/
def init : Nat := 1

/-- Both sums are below the modulus. -/
def Reduced (s : Nat × Nat) : Prop := s.1 < base ∧ s.2 < base

theorem reduced_unpack (adler : Nat) : Reduced (unpack adler) :=
  ⟨Nat.mod_lt _ (by decide), Nat.mod_lt _ (by decide)⟩

theorem reduced_step (s : Nat × Nat) (b : UInt8) : Reduced (step s b) :=
  ⟨Nat.mod_lt _ (by decide), Nat.mod_lt _ (by decide)⟩

theorem reduced_foldl {s : Nat × Nat} (h : Reduced s) (buf : Bytes) :
    Reduced (buf.foldl step s) := by
  induction buf generalizing s with
  | nil => exact h
  | cons b buf ih => exact ih (reduced_step s b)

theorem unpack_pack {s : Nat × Nat} (h : Reduced s) : unpack (pack s) = s := by
  obtain ⟨h1, h2⟩ := h
  simp only [base] at h1 h2
  simp only [unpack, pack, base, Prod.ext_iff]
  omega

theorem adler32_append (adler : Nat) (a b : Bytes) :
    adler32 adler (a ++ b) = adler32 (adler32 adler a) b := by
  simp only [adler32, List.foldl_append]
  rw [unpack_pack (reduced_foldl (reduced_unpack adler) a)]

theorem adler32_init_nil : adler32 init [] = init := by decide

theorem adler32_lt (adler : Nat) (buf : Bytes) : adler32 adler buf < 4294967296 := by
  obtain ⟨h1, h2⟩ := reduced_foldl (reduced_unpack adler) buf
  simp only [base] at h1 h2
  simp only [adler32, pack]
  omega

/-- The checksum of a string that is stored in pieces. -/
theorem foldl_adler32 (a : Bytes) (pieces : List Bytes) :
    pieces.foldl adler32 (adler32 init a) = adler32 init (a ++ pieces.flatten) := by
  induction pieces generalizing a with
  | nil => simp
  | cons p pieces ih =>
    simp only [List.foldl_cons, List.flatten_cons]
    rw [← adler32_append, ih, List.append_assoc]

/-! ### Changes that the checksum shows

A byte is taken into the sums in a way that can be undone, so two strings that have led to different
sums lead to different sums after any common rest. -/

theorem step_injective {s t : Nat × Nat} (hs : Reduced s) (ht : Reduced t) {b : UInt8}
    (h : step s b = step t b) : s = t := by
  obtain ⟨hs1, hs2⟩ := hs
  obtain ⟨ht1, ht2⟩ := ht
  simp only [step, base, Prod.mk.injEq] at h hs1 hs2 ht1 ht2
  obtain ⟨h1, h2⟩ := h
  have heq : s.1 = t.1 := by omega
  rw [heq] at h2
  exact Prod.ext heq (by omega)

theorem foldl_step_injective {s t : Nat × Nat} (hs : Reduced s) (ht : Reduced t) {buf : Bytes}
    (h : buf.foldl step s = buf.foldl step t) : s = t := by
  induction buf generalizing s t with
  | nil => exact h
  | cons b buf ih => exact step_injective hs ht (ih (reduced_step s b) (reduced_step t b) h)

/-- Strings with different sums have different checksums after a common rest. -/
theorem adler32_ne_of_sums {a b : Bytes} {adler : Nat}
    (h : a.foldl step (unpack adler) ≠ b.foldl step (unpack adler)) (post : Bytes) :
    adler32 adler (a ++ post) ≠ adler32 adler (b ++ post) := by
  have hr := fun buf : Bytes => reduced_foldl (reduced_unpack adler) buf
  intro heq
  simp only [adler32] at heq
  have hsums := congrArg unpack heq
  rw [unpack_pack (hr _), unpack_pack (hr _), List.foldl_append, List.foldl_append] at hsums
  exact h (foldl_step_injective (hr a) (hr b) hsums)

/-- The checksum of a string changes when one byte is replaced by another one. -/
theorem adler32_replace_ne (adler : Nat) (pre post : Bytes) {x y : UInt8} (h : x ≠ y) :
    adler32 adler (pre ++ x :: post) ≠ adler32 adler (pre ++ y :: post) := by
  have hxy : x.toNat ≠ y.toNat := fun he => h (UInt8.toNat_inj.mp he)
  have hx := x.toNat_lt
  have hy := y.toNat_lt
  rw [List.append_cons pre x, List.append_cons pre y]
  refine adler32_ne_of_sums ?_ post
  simp only [List.foldl_append, List.foldl_cons, List.foldl_nil, step, base, ne_eq, Prod.mk.injEq]
  omega

/-- The checksum of a string changes when two neighbours are exchanged. -/
theorem adler32_swap_ne (adler : Nat) (pre post : Bytes) {x y : UInt8} (h : x ≠ y) :
    adler32 adler (pre ++ x :: y :: post) ≠ adler32 adler (pre ++ y :: x :: post) := by
  have hxy : x.toNat ≠ y.toNat := fun he => h (UInt8.toNat_inj.mp he)
  have hx := x.toNat_lt
  have hy := y.toNat_lt
  have hsplit : ∀ a b : UInt8, pre ++ a :: b :: post = (pre ++ [a, b]) ++ post := by simp
  rw [hsplit, hsplit]
  refine adler32_ne_of_sums ?_ post
  -- Both orders give the same first sum; the second one counts the first byte once more.
  simp only [List.foldl_append, List.foldl_cons, List.foldl_nil, step, base, ne_eq, Prod.mk.injEq]
  omega

end Adler
