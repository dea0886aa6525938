import MRpc.Codec.Basic
import MRpc.Message.Grammar

/-!
# The wire format of `RpcMessage`

`SerializeWithCachedSizesToArray` and `ByteSize` of the generated `src/rpc.pb.cc`: the fields that
are set, in the order of their numbers. What is written for one field is a call of protobuf, a
parameter like the readers (`CodedOutput`); if it is a field that the readers read, and has the size
that is announced for it, then a serialized message has the size that `ByteSize` announces and is
parsed as this message.

With the readers, the writers and the stream that `ParseFromArray` opens on an array (`Library`),
`RpcMessage` is a message type of the codec (`RpcMessage.protobuf`), and what the codec assumes of
its message type follows from what is documented of protobuf (`Library.Lawful.protobuf_lawful`). An
array of 64 MiB and more is above the limit of a stream, and nothing is assumed of it.

## Main definitions

* `CodedOutput.serialize`, `CodedOutput.byteSize`: the generated serializer.
* `Library`, `RpcMessage.parseFromArray`, `RpcMessage.protobuf`: the message type.
* `PlainStream.library`, `rpcCodec`: a library to evaluate with, and the codec with the tag `mRpc`.

## Main results

* `CodedOutput.Writes.derives`: a serialized message is a sequence of fields.
* `Library.Lawful.protobuf_lawful`: parsing undoes serialization.
* `Library.Lawful.parseFromArray_serialize_append`: so it does for two messages, which are merged.
-/

namespace MRpc

open FixedWidth RpcMessage

/-! ### The generated serializer -/

/-- What the generated serializer calls of protobuf: the bytes that are written for a field of the
given number, with its tag, and the size of the content of a field. -/
structure CodedOutput where
  writeEnumToArray : Nat → Int → Bytes
  writeFixed64ToArray : Nat → UInt64 → Bytes
  writeStringToArray : Nat → Bytes → Bytes
  writeBytesToArray : Nat → Bytes → Bytes
  enumSize : Int → Nat
  stringSize : Bytes → Nat
  bytesSize : Bytes → Nat

namespace CodedOutput

section Serializer

variable (out : CodedOutput) (m : RpcMessage)

/-- `SerializeWithCachedSizesToArray`. -/
def serialize : Bytes :=
  m.type?.elim [] (fun t => out.writeEnumToArray 1 t.toNat) ++
    (m.id?.elim [] (fun n => out.writeFixed64ToArray 2 n) ++
      (m.service?.elim [] (fun b => out.writeStringToArray 3 b) ++
        (m.method?.elim [] (fun b => out.writeStringToArray 4 b) ++
          (m.request?.elim [] (fun b => out.writeBytesToArray 5 b) ++
            (m.response?.elim [] (fun b => out.writeBytesToArray 6 b) ++
              m.error?.elim [] (fun e => out.writeEnumToArray 7 e.toNat))))))

/-- `ByteSize`. -/
def byteSize : Int :=
  int32 (m.type?.elim 0 (fun t => 1 + out.enumSize t.toNat) + m.id?.elim 0 (fun _ => 1 + 8) +
    m.service?.elim 0 (fun b => 1 + out.stringSize b) +
    m.method?.elim 0 (fun b => 1 + out.stringSize b) +
    m.request?.elim 0 (fun b => 1 + out.bytesSize b) +
    m.response?.elim 0 (fun b => 1 + out.bytesSize b) +
    m.error?.elim 0 (fun e => 1 + out.enumSize e.toNat) : Nat)

end Serializer

/-- A tag of one byte and a content of the given size. -/
def Written (bytes : Bytes) (Tag Content : Bytes → Prop) (size : Nat) : Prop :=
  ∃ t v, Tag t ∧ Content v ∧ t.length = 1 ∧ v.length = size ∧ bytes = t ++ v

/-- What protobuf writes for a field is a field that it reads: the tag of the number and of the wire
type, and a word for the value, of the announced size. Strings are shorter than the 2 GiB that
protobuf admits. -/
structure Writes (out : CodedOutput) (W : Words) : Prop where
  enum : ∀ number value, number ∈ [1, 7] → 0 ≤ value → value < 7 →
    Written (out.writeEnumToArray number value) (W.tag (8 * number)) (W.enum value)
      (out.enumSize value)
  fixed64 : ∀ value, Written (out.writeFixed64ToArray 2 value) (W.tag 17) (W.fixed64 value) 8
  string : ∀ number b, number ∈ [3, 4] → b.length < 2147483648 →
    Written (out.writeStringToArray number b) (W.tag (8 * number + 2)) (W.string b)
      (out.stringSize b)
  bytes : ∀ number b, number ∈ [5, 6] → b.length < 2147483648 →
    Written (out.writeBytesToArray number b) (W.tag (8 * number + 2)) (W.bytes b)
      (out.bytesSize b)
  /-- A string is written whole. -/
  length_le_string : ∀ number b, b.length ≤ (out.writeStringToArray number b).length
  length_le_bytes : ∀ number b, b.length ≤ (out.writeBytesToArray number b).length

/-! ### What is written is read -/

theorem Written.length_eq {bytes : Bytes} {Tag Content : Bytes → Prop} {size : Nat}
    (h : Written bytes Tag Content size) : bytes.length = 1 + size := by
  obtain ⟨t, v, -, -, ht, hv, rfl⟩ := h
  rw [List.length_append, ht, hv]

theorem Written.field {W : Words} {bytes : Bytes} {tag size : Nat} {Content : Bytes → Prop}
    (h : Written bytes (W.tag tag) Content size) {f : RpcMessage → RpcMessage}
    (hcontent : ∀ v, Content v → W.Content tag f v) : W.Field bytes f := by
  obtain ⟨t, v, ht, hv, -, -, rfl⟩ := h
  exact .known ht (hcontent v hv)

/-- A field that is written if it is set. -/
theorem derives_option {W : Words} {α : Type} {o : Option α} {write : α → Bytes}
    {set : α → RpcMessage → RpcMessage} (hfield : ∀ a, o = some a → W.Field (write a) (set a))
    {m : RpcMessage} (m' : RpcMessage) (hm : o.elim m (fun a => set a m) = m') :
    W.Derives m (o.elim [] write) m' := by
  subst hm
  cases o with
  | none => exact .nil
  | some a =>
    rw [Option.elim_some, ← List.append_nil (write a)]
    exact .cons (hfield a rfl) .nil

theorem length_option {α : Type} {o : Option α} {write : α → Bytes} {size : α → Nat}
    (h : ∀ a, o = some a → (write a).length = size a) :
    (o.elim [] write).length = o.elim 0 size := by
  cases o with
  | none => rfl
  | some a => exact h a rfl

theorem withType_toNat (t : MessageType) (m : RpcMessage) :
    withType t.toNat m = { m with type? := some t } := by
  cases t <;> rfl

theorem withError_toNat (e : RpcErrorCode) (m : RpcMessage) :
    withError e.toNat m = { m with error? := some e } := by
  cases e <;> rfl

namespace Writes

variable {out : CodedOutput} {W : Words} (H : out.Writes W)
include H

theorem type (t : MessageType) : Written (out.writeEnumToArray 1 t.toNat) (W.tag 8)
    (W.enum t.toNat) (out.enumSize t.toNat) :=
  H.enum 1 t.toNat (by decide) (by omega) (by cases t <;> decide)

theorem error (e : RpcErrorCode) : Written (out.writeEnumToArray 7 e.toNat) (W.tag 56)
    (W.enum e.toNat) (out.enumSize e.toNat) :=
  H.enum 7 e.toNat (by decide) (by omega) (by cases e <;> decide)

/-- The strings of a message that fits into 2 GiB do so. -/
theorem length_lt {m : RpcMessage} (hm : (out.serialize m).length < 2147483648) {b : Bytes}
    (hb : m.service? = some b ∨ m.method? = some b ∨ m.request? = some b ∨ m.response? = some b) :
    b.length < 2147483648 := by
  simp only [serialize, List.length_append] at hm
  rcases hb with hb | hb | hb | hb <;> rw [hb, Option.elim_some] at hm
  · exact lt_of_le_of_lt (H.length_le_string 3 b) (by omega)
  · exact lt_of_le_of_lt (H.length_le_string 4 b) (by omega)
  · exact lt_of_le_of_lt (H.length_le_bytes 5 b) (by omega)
  · exact lt_of_le_of_lt (H.length_le_bytes 6 b) (by omega)

variable {m : RpcMessage} (hm : (out.serialize m).length < 2147483648)
include hm

theorem service {b : Bytes} (hb : m.service? = some b) :
    Written (out.writeStringToArray 3 b) (W.tag 26) (W.string b) (out.stringSize b) :=
  H.string 3 b (by decide) (H.length_lt hm (Or.inl hb))

theorem method {b : Bytes} (hb : m.method? = some b) :
    Written (out.writeStringToArray 4 b) (W.tag 34) (W.string b) (out.stringSize b) :=
  H.string 4 b (by decide) (H.length_lt hm (Or.inr (Or.inl hb)))

theorem request {b : Bytes} (hb : m.request? = some b) :
    Written (out.writeBytesToArray 5 b) (W.tag 42) (W.bytes b) (out.bytesSize b) :=
  H.bytes 5 b (by decide) (H.length_lt hm (Or.inr (Or.inr (Or.inl hb))))

theorem response {b : Bytes} (hb : m.response? = some b) :
    Written (out.writeBytesToArray 6 b) (W.tag 50) (W.bytes b) (out.bytesSize b) :=
  H.bytes 6 b (by decide) (H.length_lt hm (Or.inr (Or.inr (Or.inr hb))))

/-- A serialized message is a sequence of fields that makes the message of the empty one. -/
theorem derives : W.Derives .empty (out.serialize m) m := by
  have htype (t : MessageType) : W.Field (out.writeEnumToArray 1 t.toNat) (withType t.toNat) :=
    (H.type t).field fun v hv => ⟨t.toNat, hv, rfl⟩
  have hid (n : UInt64) : W.Field (out.writeFixed64ToArray 2 n) (withId n) :=
    (H.fixed64 n).field fun v hv => ⟨n, hv, rfl⟩
  have hservice (b : Bytes) (hb : m.service? = some b) :
      W.Field (out.writeStringToArray 3 b) (withService b) :=
    (H.service hm hb).field fun v hv => ⟨b, hv, rfl⟩
  have hmethod (b : Bytes) (hb : m.method? = some b) :
      W.Field (out.writeStringToArray 4 b) (withMethod b) :=
    (H.method hm hb).field fun v hv => ⟨b, hv, rfl⟩
  have hrequest (b : Bytes) (hb : m.request? = some b) :
      W.Field (out.writeBytesToArray 5 b) (withRequest b) :=
    (H.request hm hb).field fun v hv => ⟨b, hv, rfl⟩
  have hresponse (b : Bytes) (hb : m.response? = some b) :
      W.Field (out.writeBytesToArray 6 b) (withResponse b) :=
    (H.response hm hb).field fun v hv => ⟨b, hv, rfl⟩
  have herror (e : RpcErrorCode) :
      W.Field (out.writeEnumToArray 7 e.toNat) (withError e.toNat) :=
    (H.error e).field fun v hv => ⟨e.toNat, hv, rfl⟩
  obtain ⟨type?, id?, service?, method?, request?, response?, error?⟩ := m
  refine (derives_option (fun t _ => htype t) ⟨type?, none, none, none, none, none, none⟩
    (by cases type? <;> simp [withType_toNat, RpcMessage.empty])).append ?_
  refine (derives_option (fun n _ => hid n) ⟨type?, id?, none, none, none, none, none⟩
    (by cases id? <;> rfl)).append ?_
  refine (derives_option hservice ⟨type?, id?, service?, none, none, none, none⟩
    (by cases service? <;> rfl)).append ?_
  refine (derives_option hmethod ⟨type?, id?, service?, method?, none, none, none⟩
    (by cases method? <;> rfl)).append ?_
  refine (derives_option hrequest ⟨type?, id?, service?, method?, request?, none, none⟩
    (by cases request? <;> rfl)).append ?_
  refine (derives_option hresponse ⟨type?, id?, service?, method?, request?, response?, none⟩
    (by cases response? <;> rfl)).append ?_
  exact derives_option (fun e _ => herror e) _ (by cases error? <;> simp [withError_toNat])

/-- `ByteSize` announces the size of the serialized message. -/
theorem byteSize_eq : out.byteSize m = (out.serialize m).length := by
  have hlen : (out.serialize m).length =
      m.type?.elim 0 (fun t => 1 + out.enumSize t.toNat) + m.id?.elim 0 (fun _ => 1 + 8) +
      m.service?.elim 0 (fun b => 1 + out.stringSize b) +
      m.method?.elim 0 (fun b => 1 + out.stringSize b) +
      m.request?.elim 0 (fun b => 1 + out.bytesSize b) +
      m.response?.elim 0 (fun b => 1 + out.bytesSize b) +
      m.error?.elim 0 (fun e => 1 + out.enumSize e.toNat) := by
    simp only [serialize, List.length_append,
      length_option fun t _ => (H.type t).length_eq,
      length_option fun n _ => (H.fixed64 n).length_eq,
      length_option fun b hb => (H.service hm hb).length_eq,
      length_option fun b hb => (H.method hm hb).length_eq,
      length_option fun b hb => (H.request hm hb).length_eq,
      length_option fun b hb => (H.response hm hb).length_eq,
      length_option fun e _ => (H.error e).length_eq]
    omega
  rw [byteSize, ← hlen, int32_of_bounds (by omega) (by omega)]

end Writes

end CodedOutput

/-! ### The message type -/

/-- Protobuf, as far as the generated code uses it. -/
structure Library (σ : Type) where
  input : CodedInput σ
  output : CodedOutput
  /-- The stream that `ParseFromArray` opens on an array of less than 64 MiB. -/
  openArray : Bytes → σ
  /-- What `ParseFromArray` makes of a longer array, for a fresh message. -/
  parseLong : Bytes → Bool × RpcMessage

/-- What is documented of protobuf. -/
structure Library.Lawful {σ : Type} (lib : Library σ) (W : Words) : Prop where
  input : lib.input.Lawful W
  output : lib.output.Writes W
  left_openArray : ∀ b, b.length < maxMessageLen → lib.input.left (lib.openArray b) = b

namespace RpcMessage

variable {σ : Type} (lib : Library σ)

/-- `ParseFromArray` on a fresh message. -/
def parseFromArray (data : Bytes) : Bool × RpcMessage :=
  if data.length < maxMessageLen then lib.input.parseFromStream empty (lib.openArray data)
  else lib.parseLong data

/-- `RpcMessage` as a message type of the codec. -/
def protobuf : Protobuf RpcMessage where
  new := empty
  byteSize := lib.output.byteSize
  serialize := lib.output.serialize
  parseFromArray := parseFromArray lib

end RpcMessage

namespace Library.Lawful

variable {σ : Type} {lib : Library σ} {W : Words} (H : lib.Lawful W)
include H

theorem parseFromArray_of_derives {data : Bytes} (hlen : data.length < maxMessageLen)
    {m : RpcMessage} (h : W.Derives .empty data m) : parseFromArray lib data = (true, m) := by
  rw [parseFromArray, if_pos hlen]
  exact H.input.parseFromStream_of_derives (by rwa [H.left_openArray data hlen])

/-- The behaviour that the codec assumes of protobuf holds of `RpcMessage`. -/
theorem protobuf_lawful : (protobuf lib).Lawful where
  byteSize_eq m hm := H.output.byteSize_eq hm
  parse_serialize m hm := by
    refine H.parseFromArray_of_derives hm (H.output.derives ?_)
    exact hm.trans (by decide)

end Library.Lawful

/-! ### A library to evaluate with -/

namespace PlainStream

/-- A string, behind its tag and its length. -/
def writeText (number : Nat) (b : Bytes) : Bytes :=
  UInt8.ofNat (8 * number + 2) :: (Varint.encode 5 (uint32 b.length) ++ b)

/-- The writers that belong to the plain readers; an enumeration has no negative values here. -/
def codedOutput : CodedOutput where
  writeEnumToArray number value := UInt8.ofNat (8 * number) :: Varint.encode 5 (uint32 value)
  writeFixed64ToArray number value := UInt8.ofNat (8 * number + 1) :: Varint.le64 value.toNat
  writeStringToArray := writeText
  writeBytesToArray := writeText
  enumSize value := Varint.size32 (uint32 value)
  stringSize b := Varint.size32 (uint32 b.length) + b.length
  bytesSize b := Varint.size32 (uint32 b.length) + b.length

/-- The plain readers and writers; an array above the limit is not parsed. -/
def library : Library PlainStream where
  input := codedInput
  output := codedOutput
  openArray data := ⟨data, false⟩
  parseLong _ := (false, .empty)

theorem tag_singleton {tag : Nat} (h0 : tag ≠ 0) (htag : tag < 128) :
    words.tag tag [UInt8.ofNat tag] := by
  have hb : (UInt8.ofNat tag).toNat = tag := by
    rw [UInt8.toNat_ofNat']
    omega
  refine ⟨h0, (UInt8.ofNat tag).toNat, .last (by omega), by simp, ?_⟩
  omega

theorem isVarint32_encode {n : Nat} (hn : n < 4294967296) :
    IsVarint32 n (Varint.encode 5 n) := by
  have hdecode := Varint.decode_encode (k := 5) (j := 10) (n := n) (by omega) (by decide)
    (by decide) []
  obtain ⟨w, hw, hle, heq⟩ := Varint.decode_eq_some_iff.mp hdecode
  rw [List.append_nil, List.append_nil] at heq
  rw [heq]
  exact ⟨n, hw, hle, by omega⟩

/-- A `string` or `bytes` field. -/
theorem written_text {number : Nat} (hnumber : number ∈ [3, 4, 5, 6]) {b : Bytes}
    (hb : b.length < 2147483648) : CodedOutput.Written (writeText number b)
      (words.tag (8 * number + 2)) (IsText b) (Varint.size32 (uint32 b.length) + b.length) := by
  have hlt : 8 * number + 2 < 128 := by
    simp only [List.mem_cons, List.not_mem_nil, or_false] at hnumber
    omega
  have hu : uint32 b.length = b.length := uint32_natCast_of_lt (by omega)
  refine ⟨[UInt8.ofNat (8 * number + 2)], Varint.encode 5 (uint32 b.length) ++ b,
    tag_singleton (by omega) hlt, ?_, rfl, ?_, rfl⟩
  · exact ⟨_, hu.symm ▸ isVarint32_encode (by omega), hb, rfl⟩
  · rw [List.length_append, Varint.length_encode]

theorem length_le_writeText (number : Nat) (b : Bytes) :
    b.length ≤ (writeText number b).length := by
  rw [writeText, List.length_cons, List.length_append]
  omega

theorem writes : codedOutput.Writes words where
  enum number value hnumber h0 h7 := by
    have hlt : 8 * number ≠ 0 ∧ 8 * number < 128 := by
      simp only [List.mem_cons, List.not_mem_nil, or_false] at hnumber
      omega
    have hu : (uint32 value : Int) = value := by
      simp only [uint32]
      omega
    refine ⟨_, _, tag_singleton hlt.1 hlt.2, ⟨uint32 value, ?_, isVarint32_encode (uint32_lt _)⟩,
      rfl, Varint.length_encode _, rfl⟩
    rw [hu, int32_of_bounds (by omega) (by omega)]
  fixed64 value := by
    refine ⟨_, _, tag_singleton (by decide) (by decide), ⟨?_, Varint.length_le64 _⟩, rfl,
      Varint.length_le64 _, rfl⟩
    rw [Varint.leNat_le64 value.toNat_lt, UInt64.ofNat_toNat]
  string number b hnumber hb :=
    written_text (by revert hnumber; simp only [List.mem_cons]; tauto) hb
  bytes number b hnumber hb :=
    written_text (by revert hnumber; simp only [List.mem_cons]; tauto) hb
  length_le_string := length_le_writeText
  length_le_bytes := length_le_writeText

theorem library_lawful : library.Lawful words where
  input := lawful
  output := writes
  left_openArray _ _ := rfl

end PlainStream

/-- `rpctag` of `src/rpcCode.cpp`, the characters of `mRpc`. -/
def rpctag : Bytes := [109, 82, 112, 99]

/-- The codec of the program, `RpcCodeDerived`, over the plain readers and writers. -/
def rpcCodec : Codec RpcMessage := ⟨RpcMessage.protobuf PlainStream.library, rpctag⟩

theorem rpcCodec_lawful : rpcCodec.proto.Lawful := PlainStream.library_lawful.protobuf_lawful

/-- The first request of the client in `test/client.cpp`, with an empty body: `Put` of
`mRpc.TestMessage`. -/
def putRequest : RpcMessage where
  type? := some .request
  id? := some 1
  service? := some [109, 82, 112, 99, 46, 84, 101, 115, 116, 77, 101, 115, 115, 97, 103, 101]
  method? := some [80, 117, 116]
  request? := some []
  response? := none
  error? := none

/-! ### Parsing undoes serialization -/

/-- **Parsing undoes serialization, and merges.** Whatever is written and read for a single field,
as long as what is written is read: `ByteSize` announces the size of a serialized message, and two
messages that are serialized one behind the other, in less than 64 MiB, are parsed as the first one
with the second one merged into it. With nothing set in the second one, this is the first one. -/
theorem Library.Lawful.parseFromArray_serialize_append {σ : Type} {lib : Library σ} {W : Words}
    (H : lib.Lawful W) {m m' : RpcMessage}
    (hlen : (lib.output.serialize m ++ lib.output.serialize m').length < maxMessageLen) :
    lib.output.byteSize m = (lib.output.serialize m).length ∧
      parseFromArray lib (lib.output.serialize m ++ lib.output.serialize m') =
        (true, m.mergeFrom m') := by
  have hlens := hlen
  rw [List.length_append, maxMessageLen] at hlens
  have hfirst := H.output.derives (m := m) (by omega)
  have hsecond := (H.output.derives (m := m') (by omega)).mergeFrom m
  rw [m.mergeFrom_empty] at hsecond
  exact ⟨H.output.byteSize_eq (by omega), H.parseFromArray_of_derives hlen (hfirst.append hsecond)⟩

/-- A request, and a message that has only an error behind it. -/
theorem parseFromArray_serialize_append_putRequest :
    parseFromArray PlainStream.library (PlainStream.codedOutput.serialize putRequest ++
        PlainStream.codedOutput.serialize { RpcMessage.empty with error? := some .noMethod }) =
      (true, { putRequest with error? := some .noMethod }) :=
  (PlainStream.library_lawful.parseFromArray_serialize_append (by decide +kernel)).2

end MRpc
