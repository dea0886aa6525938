import MRpc.Lib.FixedWidth

/-!
# The messages of the protocol

`RpcMessage` of `src/rpc.proto`: every field is optional, and a field that is not set reads as its
default. Names and bodies are strings of bytes, as `std::string` has them; what a peer sends in
them is not checked.

The unknown fields that protobuf keeps with a parsed message are left out: a message that was
parsed is never serialized again.

## Main definitions

* `MessageType`, `RpcErrorCode`: the enumerations of the protocol.
* `RpcMessage`, with the accessors of `src/rpc.pb.h`.
-/

namespace MRpc

open FixedWidth

/-- `mRpc::MessageType`. -/
inductive MessageType
  | unknow
  | request
  | response
  | error
  deriving DecidableEq, Repr

/-- `mRpc::ErrorCode` of `src/rpc.proto`. -/
inductive RpcErrorCode
  | noError
  | wrongProto
  | noService
  | noMethod
  | invalidRequest
  | invalidResponse
  | timeout
  deriving DecidableEq, Repr

/-- The number of a message type on the wire. -/
def MessageType.toNat : MessageType → Nat
  | .unknow => 0
  | .request => 1
  | .response => 2
  | .error => 3

/-- The message type of a number, `none` where `MessageType_IsValid` is false. -/
def MessageType.ofNat? : Nat → Option MessageType
  | 0 => some .unknow
  | 1 => some .request
  | 2 => some .response
  | 3 => some .error
  | _ => none

/-- The number of an error code on the wire. -/
def RpcErrorCode.toNat : RpcErrorCode → Nat
  | .noError => 0
  | .wrongProto => 1
  | .noService => 2
  | .noMethod => 3
  | .invalidRequest => 4
  | .invalidResponse => 5
  | .timeout => 6

/-- The error code of a number, `none` where `ErrorCode_IsValid` is false. -/
def RpcErrorCode.ofNat? : Nat → Option RpcErrorCode
  | 0 => some .noError
  | 1 => some .wrongProto
  | 2 => some .noService
  | 3 => some .noMethod
  | 4 => some .invalidRequest
  | 5 => some .invalidResponse
  | 6 => some .timeout
  | _ => none

/-- `mRpc::RpcMessage`; `none` is a field that is not set. -/
structure RpcMessage where
  type? : Option MessageType
  id? : Option UInt64
  service? : Option Bytes
  method? : Option Bytes
  request? : Option Bytes
  response? : Option Bytes
  error? : Option RpcErrorCode
  deriving DecidableEq, Repr

namespace RpcMessage

/-- A message with no field set, `RpcMessage()`. -/
def empty : RpcMessage := ⟨none, none, none, none, none, none, none⟩

variable (m : RpcMessage)

/-- `type()`. -/
def type : MessageType := m.type?.getD .unknow

/-- `id()`, a `uint64_t`. -/
def id : UInt64 := m.id?.getD 0

/-- `service()`. -/
def service : Bytes := m.service?.getD []

/-- `method()`. -/
def method : Bytes := m.method?.getD []

/-- `request()`. -/
def request : Bytes := m.request?.getD []

/-- `response()`. -/
def response : Bytes := m.response?.getD []

/-- `has_response()`. -/
def hasResponse : Bool := m.response?.isSome

/-- `has_error()`. -/
def hasError : Bool := m.error?.isSome

/-- `int64_t id = message.id()`. -/
def idInt64 : Int := int64 m.id.toNat

/-- `MergeFrom`: every field that `other` has is set. -/
def mergeFrom (other : RpcMessage) : RpcMessage where
  type? := other.type?.or m.type?
  id? := other.id?.or m.id?
  service? := other.service?.or m.service?
  method? := other.method?.or m.method?
  request? := other.request?.or m.request?
  response? := other.response?.or m.response?
  error? := other.error?.or m.error?

@[simp] theorem mergeFrom_empty : m.mergeFrom empty = m := rfl

theorem idInt64_bounds :
    -9223372036854775808 ≤ m.idInt64 ∧ m.idInt64 < 9223372036854775808 := by
  simp only [idInt64, int64]
  omega

end RpcMessage

theorem MessageType.ofNat?_toNat (t : MessageType) : ofNat? t.toNat = some t := by
  cases t <;> rfl

theorem RpcErrorCode.ofNat?_toNat (e : RpcErrorCode) : ofNat? e.toNat = some e := by
  cases e <;> rfl

end MRpc
