import MRpc.Codec.Basic

/-!
# Writing frames

`fillEmptyBuffer`, `serializeToBuffer` and `send` of `src/codeClite.cpp`. Each `evbuffer` call that
can fail is given its outcome (`EvResults`); a call that fails leaves its buffer unchanged. A
message whose serialized size is not the announced one aborts the process
(`ByteSizeConsistencyError` of `src/google-inl.h`), which is `none`.

The encoder is compared with the wire format that the header documents:

    size      4-byte  M+N+4
    tag       M-byte
    payload   N-byte
    checksum  4-byte  adler32 of tag+payload

## Main definitions

* `Codec.serializeToBuffer`, `Codec.fillEmptyBuffer`, `Codec.send`.
* `Codec.IsFrame`: what `fillEmptyBuffer` writes into an empty buffer.
* `Codec.wireFrame`: the documented wire format.

## Main results

* `Codec.IsFrame.eq_wireFrame`: a frame whose length field is within `maxMessageLen` has the
  documented format.
-/

namespace MRpc

open FixedWidth

/-! ### Buffers -/

/-- The outcomes of the fallible `evbuffer` calls of one `send`. -/
structure EvResults where
  addTag : Bool
  addChecksum : Bool
  prependLen : Bool
  addBuffer : Bool

/-- Every call succeeds. -/
def EvResults.allOk : EvResults := ⟨true, true, true, true⟩

/-- `evbuffer_add`. -/
def evbufferAdd (ok : Bool) (buf data : Bytes) : Int × Bytes :=
  if ok then (0, buf ++ data) else (-1, buf)

/-- `evbuffer_prepend`. -/
def evbufferPrepend (ok : Bool) (buf data : Bytes) : Int × Bytes :=
  if ok then (0, data ++ buf) else (-1, buf)

namespace Codec

variable {Msg : Type} (c : Codec Msg)

/-- `ProtobufCodecLite::serializeToBuffer`: the size and the buffer with the message appended, or
the abort of `ByteSizeConsistencyError`. -/
def serializeToBuffer (m : Msg) (buf : Bytes) : Option (Int × Bytes) :=
  let data := c.proto.serialize m
  if data.length ≠ uint32 (c.proto.byteSize m) then none
  else some (int32 data.length, buf ++ data)

/-- `ProtobufCodecLite::fillEmptyBuffer`: the result code and the buffer. -/
def fillEmptyBuffer (L : ChainLayout) (ok : EvResults) (buf : Bytes) (m : Msg) :
    Option (Int × Bytes) :=
  let (res, buf) := evbufferAdd ok.addTag buf c.tag
  if res < 0 then some (res, buf)
  else
    match c.serializeToBuffer m buf with
    | none => none
    | some (byteSize, buf) =>
      let checkSum := checksum (L.chains buf) (int32 (byteSize + c.tag.length))
      let (res, buf) := evbufferAdd ok.addChecksum buf (hostToNetwork32 checkSum)
      if res < 0 then some (res, buf)
      else
        let len := int32 (c.tag.length + byteSize + checksumLen)
        let (res, buf) := evbufferPrepend ok.prependLen buf (hostToNetwork32 len)
        if res < 0 then some (res, buf) else some (0, buf)

/-- `ProtobufCodecLite::send` on the write buffer of a connection. A failure of `fillEmptyBuffer`
is logged and nothing more. -/
def send (L : ChainLayout) (ok : EvResults) (writeBuf : Bytes) (m : Msg) : Option Bytes :=
  match c.fillEmptyBuffer L ok [] m with
  | none => none
  | some (_, ebuf) => some (evbufferAdd ok.addBuffer writeBuf ebuf).2

/-- The bytes that `fillEmptyBuffer` writes into an empty buffer when no call fails. -/
def IsFrame (m : Msg) (fr : Bytes) : Prop :=
  ∃ L, c.fillEmptyBuffer L .allOk [] m = some (0, fr)

/-! ### The documented wire format -/

/-- The frame after its length field: tag, payload and checksum. -/
def wireBody (m : Msg) : Bytes :=
  (c.tag ++ c.proto.serialize m) ++
    be32 (Adler.adler32 Adler.init (c.tag ++ c.proto.serialize m))

/-- The frame of a message in the documented wire format. -/
def wireFrame (m : Msg) : Bytes := be32 (c.wireBody m).length ++ c.wireBody m

variable {c}

theorem length_wireBody (m : Msg) :
    (c.wireBody m).length = c.tag.length + (c.proto.serialize m).length + 4 := by
  simp only [wireBody, List.length_append, length_be32]

theorem length_wireFrame (m : Msg) :
    (c.wireFrame m).length = c.tag.length + (c.proto.serialize m).length + 8 := by
  simp only [wireFrame, List.length_append, length_be32, length_wireBody]
  omega

/-- With no failing call, `fillEmptyBuffer` writes length, tag, payload and checksum. -/
theorem fillEmptyBuffer_allOk (L : ChainLayout) (m : Msg) :
    c.fillEmptyBuffer L .allOk [] m =
      if (c.proto.serialize m).length ≠ uint32 (c.proto.byteSize m) then none
      else some (0,
        hostToNetwork32 (int32 (c.tag.length + int32 (c.proto.serialize m).length + checksumLen)) ++
          (c.tag ++ c.proto.serialize m ++
            hostToNetwork32 (checksum (L.chains (c.tag ++ c.proto.serialize m))
              (int32 (int32 (c.proto.serialize m).length + c.tag.length))))) := by
  simp only [fillEmptyBuffer, EvResults.allOk, evbufferAdd, evbufferPrepend, ↓reduceIte,
    List.nil_append, serializeToBuffer]
  by_cases h : (c.proto.serialize m).length = uint32 (c.proto.byteSize m) <;> simp [h]

/-- The parts of a frame as they were written. -/
theorem IsFrame.exists_eq {m : Msg} {fr : Bytes} (h : c.IsFrame m fr) :
    ∃ L : ChainLayout, fr =
      hostToNetwork32 (int32 (c.tag.length + int32 (c.proto.serialize m).length + checksumLen)) ++
        (c.tag ++ c.proto.serialize m ++
          hostToNetwork32 (checksum (L.chains (c.tag ++ c.proto.serialize m))
            (int32 (int32 (c.proto.serialize m).length + c.tag.length)))) := by
  obtain ⟨L, hfill⟩ := h
  rw [fillEmptyBuffer_allOk] at hfill
  split_ifs at hfill
  simp only [Option.some.injEq, Prod.mk.injEq, true_and] at hfill
  exact ⟨L, hfill.symm⟩

/-- A frame is four bytes of length, the tag, the payload and four bytes of checksum. -/
theorem IsFrame.length_eq {m : Msg} {fr : Bytes} (h : c.IsFrame m fr) :
    fr.length = c.tag.length + (c.proto.serialize m).length + 8 := by
  obtain ⟨L, rfl⟩ := h.exists_eq
  simp only [List.length_append, length_hostToNetwork32]
  omega

/-- The length field that is written for a frame shorter than `2 ^ 32` bytes. -/
theorem uint32_lengthField {M N : Nat} (h : M + N + 4 < 4294967296) :
    uint32 (int32 (M + int32 N + checksumLen)) = M + N + 4 := by
  rw [uint32_int32]
  simp only [uint32, int32, checksumLen]
  omega

theorem IsFrame.beNat_eq {m : Msg} {fr : Bytes} (h : c.IsFrame m fr)
    (hlen : fr.length < 4294967296) :
    beNat fr = c.tag.length + (c.proto.serialize m).length + 4 := by
  rw [h.length_eq] at hlen
  obtain ⟨L, rfl⟩ := h.exists_eq
  rw [hostToNetwork32, beNat_be32_append (uint32_lt _), uint32_lengthField (by omega)]

/-- A frame whose length field is at most `maxMessageLen` has the documented format, and its
length field is the true length. -/
theorem IsFrame.eq_wireFrame {m : Msg} {fr : Bytes} (h : c.IsFrame m fr)
    (hfield : beNat fr ≤ maxMessageLen) (hlen : fr.length < 4294967296) :
    fr = c.wireFrame m ∧ (c.wireBody m).length ≤ maxMessageLen := by
  rw [h.beNat_eq hlen] at hfield
  rw [h.length_eq] at hlen
  obtain ⟨L, hfill⟩ := h.exists_eq
  set N := (c.proto.serialize m).length with hN
  set d := c.tag ++ c.proto.serialize m with hd
  have hdlen : d.length = c.tag.length + N := by simp [hd, hN]
  have hbody : c.wireBody m = d ++ be32 (Adler.adler32 Adler.init d) := rfl
  have hlenfield : uint32 (int32 (c.tag.length + int32 N + checksumLen)) =
      c.tag.length + N + 4 := uint32_lengthField (by omega)
  have hsum : checksum (L.chains d) (int32 (int32 N + c.tag.length)) =
      int32 (Adler.adler32 Adler.init d) := by
    refine checksum_chains L d (Or.inr ?_)
    simp only [maxMessageLen] at hfield
    rw [int32_of_bounds (z := N) (by omega) (by omega), int32_of_bounds (by omega) (by omega)]
    omega
  have hadler := uint32_natCast_of_lt (Adler.adler32_lt Adler.init d)
  refine ⟨?_, by rw [length_wireBody]; exact hfield⟩
  rw [hfill, hsum, wireFrame, length_wireBody, hbody, hostToNetwork32, hostToNetwork32,
    hlenfield, uint32_int32, hadler]

/-- For a message that protobuf serializes as announced, there is a frame. -/
theorem isFrame_wireFrame (hP : c.proto.Lawful) {m : Msg}
    (hlen : (c.wireBody m).length ≤ maxMessageLen) (L : ChainLayout) :
    c.fillEmptyBuffer L .allOk [] m = some (0, c.wireFrame m) := by
  rw [length_wireBody] at hlen
  have hsmall : (c.proto.serialize m).length < 2147483648 := by
    simp only [maxMessageLen] at hlen
    omega
  have hsize : ¬ (c.proto.serialize m).length ≠ uint32 (c.proto.byteSize m) := by
    rw [hP.byteSize_eq m hsmall, uint32_natCast_of_lt (by omega)]
    exact fun h => h rfl
  have hfill := fillEmptyBuffer_allOk (c := c) L m
  rw [if_neg hsize] at hfill
  have hframe : c.IsFrame m _ := ⟨L, hfill⟩
  have hlong := hframe.length_eq
  have hfield := hframe.beNat_eq (by simp only [maxMessageLen] at hlen; omega)
  obtain ⟨hfr, -⟩ := hframe.eq_wireFrame (by rw [hfield]; exact hlen)
    (by simp only [maxMessageLen] at hlen; omega)
  rw [hfill, hfr]

end Codec

end MRpc
