import MRpc.Lib.Adler32

/-!
# The codec and the libraries it rests on

`ProtobufCodecLite` (`src/codeClite.h`) frames protobuf messages on a byte stream: a four-byte
length, the tag of the codec, the serialized message and an Adler-32 checksum of tag and message.
This file has its constants, its error codes and the parts that both directions share.

Protobuf is a parameter (`Protobuf`): how a message type serializes, what `ByteSize` announces and
what `ParseFromArray` returns, together with the content the message object is left with, also
when parsing fails. What the codec relies on is `Protobuf.Lawful`. An `evbuffer` is a string of
bytes; libevent stores it in chains of its own choice, which `checksum` walks, so the chains are a
`ChainLayout`.

## Main definitions

* `Protobuf`, `Protobuf.Lawful`: a message type, and what the codec assumes of it.
* `Codec`: the prototype and the tag of a `ProtobufCodecLite`.
* `evbufferPeek`, `checksum`, `asInt32`, `validateChecksum`.

## Main results

* `checksum_chains`: the checksum of an `evbuffer` does not depend on its chains.
* `validateChecksum_append`: what `validateChecksum` accepts.
* `validateChecksum_checksum`: it accepts the checksum of the sender and nothing else.
-/

namespace MRpc

open FixedWidth

/-! ### Sizes -/

/-- `headerLen`, the size of the length field. -/
def headerLen : Nat := 4

/-- `checksumLen`, the size of the checksum field. -/
def checksumLen : Nat := 4

/-- `maxMessageLen`, 64 MiB. -/
def maxMessageLen : Nat := 67108864

/-! ### Message types -/

/-- A protobuf message type, as far as the codec uses it. -/
structure Protobuf (Msg : Type) where
  /-- A fresh message, `prototype->New()`. -/
  new : Msg
  /-- The size that the message announces before it is serialized. -/
  byteSize : Msg → Int
  /-- The bytes of `SerializeWithCachedSizesToArray`. -/
  serialize : Msg → Bytes
  /-- `ParseFromArray` on a fresh message: whether it succeeded, and the content of the message
  afterwards. -/
  parseFromArray : Bytes → Bool × Msg

/-- The behaviour of protobuf that the codec relies on: `ByteSize` is the serialized size of a
message below the 2 GiB that an `int` counts, and parsing undoes serialization below the 64 MiB that
protobuf and the codec admit. -/
structure Protobuf.Lawful {Msg : Type} (P : Protobuf Msg) : Prop where
  byteSize_eq : ∀ m, (P.serialize m).length < 2147483648 → P.byteSize m = (P.serialize m).length
  parse_serialize : ∀ m, (P.serialize m).length < maxMessageLen →
    P.parseFromArray (P.serialize m) = (true, m)

/-! ### The codec -/

/-- `ProtobufCodecLite::ErrorCode`. -/
inductive ErrorCode
  | noError
  | invalidLength
  | checkSumError
  | invalidNameLen
  | unknownMessageType
  | parseError
  deriving DecidableEq, Repr

/-- The members of a `ProtobufCodecLite` that are fixed at construction. -/
structure Codec (Msg : Type) where
  /-- The message type of the prototype. -/
  proto : Protobuf Msg
  /-- `_tag`. -/
  tag : Bytes

namespace Codec

variable {Msg : Type} (c : Codec Msg)

/-- `minMessageLen`, a `uint32_t`. -/
def minMessageLen : Nat := uint32 (c.tag.length + checksumLen : Nat)

/-- The right-hand side of the condition of the loop in `onMessage`. -/
def minFrameLen : Nat := uint32 (c.minMessageLen + headerLen : Nat)

variable {c}

theorem minMessageLen_of_lt (h : c.tag.length + 4 < 4294967296) :
    c.minMessageLen = c.tag.length + 4 :=
  uint32_natCast_of_lt h

theorem minFrameLen_of_lt (h : c.tag.length + 8 < 4294967296) :
    c.minFrameLen = c.tag.length + 8 := by
  rw [minFrameLen, minMessageLen_of_lt (by omega)]
  exact uint32_natCast_of_lt (by simpa [headerLen] using h)

end Codec

/-! ### Network byte order -/

/-- The bytes in memory of `hostToNetwork32(v)`. -/
def hostToNetwork32 (v : Int) : Bytes := be32 (uint32 v)

/-- `ProtobufCodecLite::asInt32`. -/
def asInt32 (buf : Bytes) : Int := int32 (beNat buf)

@[simp] theorem length_hostToNetwork32 (v : Int) : (hostToNetwork32 v).length = 4 := rfl

theorem asInt32_bounds (buf : Bytes) : -2147483648 ≤ asInt32 buf ∧ asInt32 buf < 2147483648 := by
  simp only [asInt32, int32]
  omega

theorem asInt32_take (buf : Bytes) : asInt32 (buf.take 4) = asInt32 buf := by
  rw [asInt32, asInt32, beNat_take]

/-- Four bytes are read as `v` exactly if they are the bytes of `v`. -/
theorem asInt32_eq_iff {buf : Bytes} (hbuf : buf.length = 4) {v : Int} (hlo : -2147483648 ≤ v)
    (hhi : v < 2147483648) : asInt32 buf = v ↔ buf = hostToNetwork32 v := by
  have hword : beNat (be32 (uint32 v)) = uint32 v := beNat_be32 (uint32_lt v)
  rw [asInt32]
  nth_rewrite 1 [← int32_of_bounds hlo hhi]
  rw [int32_eq_iff, uint32_natCast_of_lt (beNat_lt buf), ← hword]
  constructor
  · exact beNat_injective hbuf (length_be32 _)
  · rintro rfl
    rfl

theorem asInt32_append {buf : Bytes} (h : 4 ≤ buf.length) (rest : Bytes) :
    asInt32 (buf ++ rest) = asInt32 buf := by
  rw [asInt32, asInt32, beNat_append h]

/-! ### The checksum of an `evbuffer` -/

/-- How libevent stores the content of an `evbuffer`. -/
structure ChainLayout where
  /-- The chains that hold a content. -/
  chains : Bytes → List Bytes
  flatten_chains : ∀ b, (chains b).flatten = b

/-- `evbuffer_peek`: whole chains until `len` bytes are covered, all of them for a negative
`len`. `seen` counts the bytes of the chains already taken. -/
def evbufferPeek (len : Int) : Nat → List Bytes → List Bytes
  | _, [] => []
  | seen, chain :: chains =>
    if 0 ≤ len ∧ len ≤ seen then []
    else chain :: evbufferPeek len (seen + chain.length) chains

/-- `ProtobufCodecLite::checksum` on the chains of a buffer. -/
def checksum (chains : List Bytes) (len : Int) : Int :=
  int32 ((evbufferPeek len 0 chains).foldl Adler.adler32 Adler.init : Nat)

/-- Chains that hold no more than `len` bytes are all covered, but for empty ones at the end. -/
theorem flatten_evbufferPeek {len : Int} (chains : List Bytes) (seen : Nat)
    (h : len < 0 ∨ (seen + chains.flatten.length : Nat) ≤ len) :
    (evbufferPeek len seen chains).flatten = chains.flatten := by
  induction chains generalizing seen with
  | nil => rfl
  | cons chain chains ih =>
    simp only [List.flatten_cons, List.length_append] at h ⊢
    rw [evbufferPeek]
    split_ifs with hstop
    · have hlen : chain.length + chains.flatten.length = 0 := by omega
      have h1 : chain = [] := List.length_eq_zero_iff.mp (by omega)
      have h2 : chains.flatten = [] := List.length_eq_zero_iff.mp (by omega)
      simp only [h1, h2, List.flatten_nil, List.append_nil]
    · rw [List.flatten_cons, ih _ (by omega)]

/-- The checksum of chains that are all covered is that of the bytes in them. -/
theorem checksum_flatten {chains : List Bytes} {len : Int}
    (h : len < 0 ∨ chains.flatten.length ≤ len) :
    checksum chains len = int32 (Adler.adler32 Adler.init chains.flatten) := by
  have hfold := Adler.foldl_adler32 [] (evbufferPeek len 0 chains)
  rw [Adler.adler32_init_nil, List.nil_append, flatten_evbufferPeek] at hfold
  · rw [checksum, hfold]
  · rwa [Nat.zero_add]

/-- The checksum of the whole content of a buffer does not depend on its chains. -/
theorem checksum_chains (L : ChainLayout) (b : Bytes) {len : Int}
    (h : len < 0 ∨ b.length ≤ len) :
    checksum (L.chains b) len = int32 (Adler.adler32 Adler.init b) := by
  rw [checksum_flatten (by rwa [L.flatten_chains]), L.flatten_chains]

theorem checksum_bounds (chains : List Bytes) (len : Int) :
    -2147483648 ≤ checksum chains len ∧ checksum chains len < 2147483648 := by
  simp only [checksum, int32]
  omega

/-! ### Checking the checksum of a frame -/

/-- The `n` bytes at offset `off` of a block of memory, `none` when they leave the block. -/
def memRead (buf : Bytes) (off n : Int) : Option Bytes :=
  if 0 ≤ off ∧ 0 ≤ n ∧ off + n ≤ buf.length then some ((buf.drop off.toNat).take n.toNat)
  else none

theorem memRead_append (a b r : Bytes) :
    memRead (a ++ b ++ r) a.length b.length = some b := by
  have hbound : (0 : Int) ≤ a.length ∧ (0 : Int) ≤ b.length ∧
      (a.length + b.length : Int) ≤ (a ++ b ++ r).length := by
    simp only [List.length_append]
    omega
  rw [memRead, if_pos hbound, Int.toNat_natCast, Int.toNat_natCast, List.append_assoc,
    List.drop_left, List.take_left]

/-- `ProtobufCodecLite::validateChecksum`; `none` when it reads outside the buffer. -/
def validateChecksum (buf : Bytes) (len : Int) : Option Bool := do
  let expectedCheckSum ← memRead buf (len - checksumLen) checksumLen
  let body ← memRead buf 0 (len - checksumLen)
  return int32 (Adler.adler32 Adler.init body) == asInt32 expectedCheckSum

/-- On a frame body of `d` and four checksum bytes, the checksum of `d` is compared with them. -/
theorem validateChecksum_append (d sum rest : Bytes) (hsum : sum.length = 4) :
    validateChecksum (d ++ sum ++ rest) (d.length + 4 : Nat) =
      some (int32 (Adler.adler32 Adler.init d) == asInt32 sum) := by
  have h1 : memRead (d ++ sum ++ rest) ((d.length + 4 : Nat) - checksumLen) checksumLen =
      some sum := by
    have hmem := memRead_append d sum rest
    rw [hsum] at hmem
    simpa [checksumLen] using hmem
  have h2 : memRead (d ++ sum ++ rest) 0 ((d.length + 4 : Nat) - checksumLen) = some d := by
    have hmem := memRead_append [] d (sum ++ rest)
    simpa [checksumLen] using hmem
  simp only [validateChecksum, h1, h2, Option.bind_eq_bind, Option.bind_some]
  rfl

/-- The four bytes that `validateChecksum` accepts behind `d` are those of the checksum of any
chains that hold `d`. -/
theorem validateChecksum_eq_decide {d : Bytes} {chains : List Bytes} (hchains : chains.flatten = d)
    {sum : Bytes} (hsum : sum.length = 4) :
    validateChecksum (d ++ sum) (d.length + checksumLen) =
      some (decide (sum = hostToNetwork32 (checksum chains d.length))) := by
  have hbounds := checksum_bounds chains d.length
  have hvalid := validateChecksum_append d sum [] hsum
  rw [List.append_nil, Nat.cast_add] at hvalid
  have hchecksum : checksum chains d.length = int32 (Adler.adler32 Adler.init d) := by
    rw [checksum_flatten (by rw [hchains]; exact Or.inr le_rfl), hchains]
  rw [checksumLen, hvalid, Option.some.injEq, Bool.eq_iff_iff, beq_iff_eq, decide_eq_true_eq,
    ← asInt32_eq_iff hsum hbounds.1 hbounds.2, hchecksum, eq_comm]

/-- **The checksum of the sender and that of the receiver agree.** Whatever chains hold the bytes
`d`, `validateChecksum` accepts `d` followed by the bytes of their `checksum`, of no other value,
and rejects `d` followed by any other four bytes. -/
theorem validateChecksum_checksum {d : Bytes} {chains : List Bytes} (hchains : chains.flatten = d) :
    validateChecksum (d ++ hostToNetwork32 (checksum chains d.length)) (d.length + checksumLen) =
        some true ∧
      (∀ v, -2147483648 ≤ v → v < 2147483648 →
        validateChecksum (d ++ hostToNetwork32 v) (d.length + checksumLen) = some true →
          v = checksum chains d.length) ∧
      ∀ sum : Bytes, sum.length = checksumLen → sum ≠ hostToNetwork32 (checksum chains d.length) →
        validateChecksum (d ++ sum) (d.length + checksumLen) = some false := by
  refine ⟨?_, fun v hlo hhi haccept => ?_, fun sum hsum hne => ?_⟩
  · rw [validateChecksum_eq_decide hchains (length_hostToNetwork32 _), decide_eq_true rfl]
  · rw [validateChecksum_eq_decide hchains (length_hostToNetwork32 v), Option.some.injEq,
      decide_eq_true_eq] at haccept
    have hbounds := checksum_bounds chains d.length
    have hv := (asInt32_eq_iff (length_hostToNetwork32 v) hlo hhi).mpr rfl
    have hsum := (asInt32_eq_iff (length_hostToNetwork32 v) hbounds.1 hbounds.2).mpr haccept
    exact hv.symm.trans hsum
  · rw [validateChecksum_eq_decide hchains hsum, decide_eq_false hne]

/-- Three bytes in two chains and an empty one. -/
theorem validateChecksum_checksum_chains :
    ([[109, 82], [], [112]] : List Bytes).flatten = [109, 82, 112] ∧
      validateChecksum ([109, 82, 112] ++ hostToNetwork32 (checksum [[109, 82], [], [112]] 3)) 7 =
        some true := by
  have hchains : ([[109, 82], [], [112]] : List Bytes).flatten = [109, 82, 112] := rfl
  exact ⟨hchains, (validateChecksum_checksum hchains).1⟩

end MRpc
