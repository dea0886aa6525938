import MRpc.Lib.Varint
import MRpc.Message.Parser

/-!
# A reader to evaluate the parser with

The readers that the parser takes as a parameter, on a string of bytes in memory, without buffers,
limits and groups. They read varints of at most ten bytes, strings that announce their length and
little-endian words, as the calls of protobuf do on such an input, and keep what the parser relies
on (`PlainStream.lawful`). They serve to run the parser on concrete inputs; no result about the
parser depends on them.

## Main definitions

* `PlainStream`, `PlainStream.codedInput`: the readers.
* `PlainStream.words`: their languages.

## Main results

* `PlainStream.lawful`.
-/

namespace MRpc

open FixedWidth Reading

/-- The bytes that are left, and whether the end was found where a tag was looked for. -/
structure PlainStream where
  left : Bytes
  consumed : Bool
  deriving DecidableEq, Repr

namespace PlainStream

/-! ### The readers -/

/-- A varint of at most ten bytes, without its high bits. -/
def varint32 (input : Bytes) : Option (Nat × Bytes) :=
  (Varint.decode 10 input).map fun r => (r.1 % 4294967296, r.2)

/-- The first `n` bytes and the rest, if there are so many. -/
def splitBytes (n : Nat) (input : Bytes) : Option (Bytes × Bytes) :=
  if input.length < n then none else some (input.take n, input.drop n)

/-- The content of a string and the rest. -/
def lengthDelimited (input : Bytes) : Option (Bytes × Bytes) :=
  match varint32 input with
  | none => none
  | some (len, rest) => if 2147483648 ≤ len then none else splitBytes len rest

/-- The content of a field with the given tag, which is dropped, and the rest. -/
def skip (tag : Nat) (input : Bytes) : Option (Unit × Bytes) :=
  match tag % 8 with
  | 0 => (Varint.decode 10 input).map fun r => ((), r.2)
  | 1 => (splitBytes 8 input).map fun r => ((), r.2)
  | 2 => (lengthDelimited input).map fun r => ((), r.2)
  | 5 => (splitBytes 4 input).map fun r => ((), r.2)
  | _ => none

/-- A string, and its content also if the read failed. -/
def readText (prev : Bytes) (s : PlainStream) : (Bool × Bytes) × PlainStream :=
  match lengthDelimited s.left with
  | some (b, rest) => ((true, b), ⟨rest, false⟩)
  | none => ((false, prev), s)

/-- The readers, as the parser calls them. -/
def codedInput : CodedInput PlainStream where
  left s := s.left
  readTagWithCutoff cutoff s :=
    match varint32 s.left with
    | none => ((0, true), ⟨s.left, s.left.isEmpty⟩)
    | some (tag, rest) => ((tag, tag ≤ cutoff), ⟨rest, false⟩)
  expectTag tag s :=
    match varint32 s.left with
    | none => (false, s)
    | some (next, rest) => if next = tag ∧ tag ≠ 0 then (true, ⟨rest, false⟩) else (false, s)
  expectAtEnd s := if s.left = [] then (true, ⟨[], true⟩) else (false, s)
  readEnum s :=
    match varint32 s.left with
    | none => (none, s)
    | some (n, rest) => (some (int32 n), ⟨rest, false⟩)
  readFixed64 s :=
    match splitBytes 8 s.left with
    | none => (none, s)
    | some (word, rest) => (some (UInt64.ofNat (Varint.leNat word)), ⟨rest, false⟩)
  readString := readText
  readBytes := readText
  skipField tag s :=
    match skip tag s.left with
    | none => (false, s)
    | some (_, rest) => (true, ⟨rest, false⟩)
  consumedEntireMessage s := s.consumed

/-! ### Their languages -/

/-- A varint of at most ten bytes whose low 32 bits are `n`. -/
def IsVarint32 (n : Nat) (w : Bytes) : Prop :=
  ∃ k, Varint.Encodes w k ∧ w.length ≤ 10 ∧ n = k % 4294967296

/-- The length of a string and its content. -/
def IsText (b w : Bytes) : Prop :=
  ∃ l, IsVarint32 b.length l ∧ b.length < 2147483648 ∧ w = l ++ b

/-- The content of a field that is skipped. -/
def IsSkipped (tag : Nat) (w : Bytes) : Prop :=
  match tag % 8 with
  | 0 => ∃ k, Varint.Encodes w k ∧ w.length ≤ 10
  | 1 => ∃ b, b = w ∧ w.length = 8
  | 2 => ∃ b, IsText b w
  | 5 => ∃ b, b = w ∧ w.length = 4
  | _ => False

/-- The languages of the readers. -/
def words : Words where
  tag t w := t ≠ 0 ∧ IsVarint32 t w
  enum v w := ∃ n : Nat, v = int32 n ∧ IsVarint32 n w
  fixed64 v w := v = UInt64.ofNat (Varint.leNat w) ∧ w.length = 8
  string := IsText
  bytes := IsText
  skipped := IsSkipped

theorem splits_decode :
    Splits (Varint.decode 10) fun k w => Varint.Encodes w k ∧ w.length ≤ 10 := by
  intro input k rest
  simp only [Varint.decode_eq_some_iff, and_assoc]

theorem splits_varint32 : Splits varint32 IsVarint32 := by
  intro input n rest
  rw [varint32, Option.map_eq_some_iff]
  constructor
  · rintro ⟨⟨k, r⟩, hd, hr⟩
    obtain ⟨rfl, rfl⟩ := Prod.mk.inj hr
    obtain ⟨w, ⟨hw, hle⟩, rfl⟩ := (splits_decode _ _ _).mp hd
    exact ⟨w, ⟨k, hw, hle, rfl⟩, rfl⟩
  · rintro ⟨w, ⟨k, hk, hle, rfl⟩, rfl⟩
    exact ⟨(k, rest), (splits_decode _ _ _).mpr ⟨w, ⟨hk, hle⟩, rfl⟩, rfl⟩

theorem splits_splitBytes (n : Nat) : Splits (splitBytes n) fun b w => b = w ∧ w.length = n := by
  intro input b rest
  rw [splitBytes]
  constructor
  · intro h
    split_ifs at h with hlt
    obtain ⟨rfl, rfl⟩ := Prod.mk.inj (Option.some.inj h)
    exact ⟨_, ⟨rfl, List.length_take_of_le (Nat.le_of_not_lt hlt)⟩,
      (List.take_append_drop n input).symm⟩
  · rintro ⟨w, ⟨rfl, rfl⟩, rfl⟩
    rw [if_neg (by rw [List.length_append]; omega), List.take_left, List.drop_left]

theorem splits_lengthDelimited : Splits lengthDelimited IsText := by
  intro input b rest
  rw [lengthDelimited]
  constructor
  · intro h
    split at h
    case h_1 => cases h
    case h_2 len tail hread =>
      split_ifs at h with hlong
      obtain ⟨l, hl, rfl⟩ := (splits_varint32 _ _ _).mp hread
      obtain ⟨w, ⟨rfl, rfl⟩, rfl⟩ := (splits_splitBytes len _ _ _).mp h
      exact ⟨l ++ b, ⟨l, hl, by omega, rfl⟩, (List.append_assoc _ _ _).symm⟩
  · rintro ⟨w, ⟨l, hl, hlen, rfl⟩, rfl⟩
    have hread : varint32 (l ++ b ++ rest) = some (b.length, b ++ rest) :=
      (splits_varint32 _ _ _).mpr ⟨l, hl, List.append_assoc _ _ _⟩
    simp only [hread]
    rw [if_neg (by omega)]
    exact (splits_splitBytes _ _ _ _).mpr ⟨b, ⟨rfl, rfl⟩, rfl⟩

theorem splits_skip (tag : Nat) : Splits (skip tag) fun _ => IsSkipped tag := by
  intro input u rest
  rw [skip]
  simp only [IsSkipped]
  split
  · exact splits_decode.ignore _ _ _
  · exact (splits_splitBytes 8).ignore _ _ _
  · exact splits_lengthDelimited.ignore _ _ _
  · exact (splits_splitBytes 4).ignore _ _ _
  · simp

/-! ### What the parser relies on -/

theorem takes_enum : Takes PlainStream.left codedInput.readEnum words.enum :=
  splits_varint32.takes PlainStream.left codedInput.readEnum (fun n : Nat => int32 n)
    (fun s h => by simp [codedInput, h])
    fun s n rest h => ⟨⟨rest, false⟩, by simp [codedInput, h], rfl⟩

theorem takes_fixed64 : Takes PlainStream.left codedInput.readFixed64 words.fixed64 := by
  have H := (splits_splitBytes 8).takes PlainStream.left codedInput.readFixed64
    (fun word => UInt64.ofNat (Varint.leNat word))
    (fun s h => by simp [codedInput, h])
    fun s word rest h => ⟨⟨rest, false⟩, by simp [codedInput, h], rfl⟩
  simpa [words] using H

theorem takes_text (prev : Bytes) :
    Takes PlainStream.left (fun s => CodedInput.reads (readText prev s)) IsText := by
  have H := splits_lengthDelimited.takes PlainStream.left
    (fun s => CodedInput.reads (readText prev s)) (fun b => b)
    (fun s h => by simp [readText, h, CodedInput.reads])
    fun s b rest h => ⟨⟨rest, false⟩, by simp [readText, h, CodedInput.reads], rfl⟩
  simpa using H

theorem takes_skipped (tag : Nat) :
    Takes PlainStream.left (fun s => CodedInput.succeeds (codedInput.skipField tag s))
      fun _ => IsSkipped tag := by
  have H := (splits_skip tag).takes PlainStream.left
    (fun s => CodedInput.succeeds (codedInput.skipField tag s)) (fun u => u)
    (fun s h => by simp [codedInput, h, CodedInput.succeeds])
    fun s u rest h => ⟨⟨rest, false⟩, by simp [codedInput, h, CodedInput.succeeds], rfl⟩
  simpa using H

/-- `ReadTag`: nothing is taken from a string that does not begin with a varint, and a tag that is
zero is none. -/
theorem readTag_eq (s : PlainStream) : codedInput.readTag s =
    match varint32 s.left with
    | none => (none, ⟨s.left, s.left.isEmpty⟩)
    | some (tag, rest) => (if tag = 0 then none else some tag, ⟨rest, false⟩) := by
  rcases h : varint32 s.left with _ | ⟨tag, rest⟩ <;> simp [CodedInput.readTag, codedInput, h]

theorem takes_tag : Takes PlainStream.left codedInput.readTag words.tag where
  exists_word {s t s'} h := by
    rw [readTag_eq] at h
    split at h
    case h_1 => cases h
    case h_2 tag rest hread =>
      obtain ⟨htag, rfl⟩ := Prod.mk.inj h
      split_ifs at htag with hzero
      obtain rfl := Option.some.inj htag
      obtain ⟨w, hw, hleft⟩ := (splits_varint32 _ _ _).mp hread
      exact ⟨w, ⟨hzero, hw⟩, hleft⟩
  read_word {s t w rest} hw hs := by
    have hread := (splits_varint32 s.left t rest).mpr ⟨w, hw.2, hs⟩
    refine ⟨⟨rest, false⟩, ?_, rfl⟩
    rw [readTag_eq, hread]
    simp only [hw.1, ↓reduceIte]

/-- **The readers keep what the parser relies on.** -/
theorem lawful : codedInput.Lawful words where
  tag_ne {t w} h := by
    obtain ⟨hne, k, hk, -⟩ := h
    exact ⟨hne, List.length_pos_iff.mp hk.length_pos⟩
  takes_tag := takes_tag
  cutoff s h := by
    rcases hread : varint32 s.left with _ | ⟨tag, rest⟩ <;> simp [codedInput, hread] at h ⊢
    exact Or.inl h
  expectTag_true {t s s'} h := by
    rcases hread : varint32 s.left with _ | ⟨tag, rest⟩ <;> simp only [codedInput, hread] at h
    · cases h
    · split_ifs at h with htag
      · obtain ⟨rfl, hzero⟩ := htag
        obtain ⟨-, rfl⟩ := Prod.mk.inj h
        obtain ⟨w, hw, hleft⟩ := (splits_varint32 _ _ _).mp hread
        exact ⟨w, ⟨hzero, hw⟩, hleft⟩
      · cases h
  expectTag_false {t s s'} h := by
    rcases hread : varint32 s.left with _ | ⟨tag, rest⟩ <;> simp only [codedInput, hread] at h
    · obtain ⟨-, rfl⟩ := Prod.mk.inj h
      rfl
    · split_ifs at h
      · cases h
      · obtain ⟨-, rfl⟩ := Prod.mk.inj h
        rfl
  expectAtEnd_true {s s'} h := by
    simp only [codedInput] at h
    split_ifs at h with hnil
    · obtain ⟨-, rfl⟩ := Prod.mk.inj h
      exact ⟨hnil, rfl⟩
    · cases h
  expectAtEnd_false {s s'} h := by
    simp only [codedInput] at h
    split_ifs at h
    · cases h
    · obtain ⟨-, rfl⟩ := Prod.mk.inj h
      rfl
  consumed_none {s s'} h := by
    rw [readTag_eq] at h
    split at h
    case h_1 =>
      obtain ⟨-, rfl⟩ := Prod.mk.inj h
      exact List.isEmpty_iff
    case h_2 tag rest hread =>
      obtain ⟨-, rfl⟩ := Prod.mk.inj h
      refine iff_of_false Bool.false_ne_true fun hnil => ?_
      have hnil' : s.left = [] := hnil
      rw [hnil'] at hread
      cases hread
  consumed_some {s s' t} h := by
    rw [readTag_eq] at h
    split at h
    case h_1 => cases h
    case h_2 =>
      obtain ⟨-, rfl⟩ := Prod.mk.inj h
      rfl
  takes_enum := takes_enum
  takes_fixed64 := takes_fixed64
  takes_string := takes_text
  takes_bytes := takes_text
  takes_skipped := takes_skipped
  string_congr {s t} h prev := by
    have hleft : s.left = t.left := h
    simp only [codedInput, readText, hleft]
    split <;> rfl
  bytes_congr {s t} h prev := by
    have hleft : s.left = t.left := h
    simp only [codedInput, readText, hleft]
    split <;> rfl

end PlainStream

end MRpc
