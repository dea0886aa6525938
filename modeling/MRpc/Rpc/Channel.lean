import MRpc.Codec.Basic
import MRpc.Message.RpcMessage

/-!
# The RPC channel

`RpcChannel` of `src/rpcChannel.h` and `src/rpcChannel.cpp`: the client's calls, the answers to
them, and the dispatch of a request to a registered service.

Objects on the heap (response objects, closures, controllers, connections) are known by their
address; what a function does to them, and to the connection, is the list of its effects in order.
A false assertion ends the process and is an error. Three things come from outside: the calls that
a closure issues when it is run, the address that `New()` returns, and the content of a response
object when its service completes the call.

`_id` is a static member, so the counter belongs to the process (`Process.lastId`) and not to the
channel. It is an `int`, whose overflow wraps around.

## Main definitions

* `Service`, `MethodDescriptor`, `ServiceTable`: what protobuf generates for a service.
* `Call`: the arguments of a `CallMethod`.
* `RpcChannel`, `Process`, `Effect`, `Assertion`.
* `Process.callMethod`, `Process.onRpcMessage`, `RpcChannel.doneCallback`,
  `RpcChannel.destructor`: the functions of the channel.

## Main results

* `idInt64_requestMessage`: an id survives the way through the wire.
* `Process.onResponse_of_some`, `Process.onResponse_of_none`: what is done with an answer to an
  outstanding call, and with any other.
-/

namespace MRpc

open FixedWidth

/-! ### Services -/

/-- `google::protobuf::MethodDescriptor`, as far as the channel reads it. -/
structure MethodDescriptor (Msg : Type) where
  /-- `service()->full_name()`. -/
  serviceName : Bytes
  name : Bytes
  /-- The type that `GetRequestPrototype` returns. -/
  requestPrototype : Protobuf Msg
  /-- The type that `GetResponsePrototype` returns. -/
  responsePrototype : Protobuf Msg

/-- `google::protobuf::Service` with its descriptor. -/
structure Service (Msg : Type) where
  /-- `GetDescriptor()->full_name()`. -/
  fullName : Bytes
  methods : List (MethodDescriptor Msg)

/-- `FindMethodByName`. -/
def Service.findMethodByName {Msg : Type} (s : Service Msg) (name : Bytes) :
    Option (MethodDescriptor Msg) :=
  s.methods.find? fun method => method.name = name

/-- `std::map<std::string, google::protobuf::Service*>`; a service pointer may be `NULL`. -/
abbrev ServiceTable (Msg : Type) := Std.TreeMap Bytes (Option (Service Msg))

/-! ### Messages -/

/-- `set_id` with an `int64_t`. -/
def wireId (id : Int) : UInt64 := UInt64.ofNat (uint64 id)

/-- The arguments of a `CallMethod`; `none` is a `NULL` pointer. The channel never uses the
controller. -/
structure Call (Msg : Type) where
  method : MethodDescriptor Msg
  controller : Option Ptr
  request : Msg
  response : Option Ptr
  done : Option Ptr

/-- The message that `CallMethod` sends. -/
def requestMessage {Msg : Type} (id : Int) (call : Call Msg) : RpcMessage where
  type? := some .request
  id? := some (wireId id)
  service? := some call.method.serviceName
  method? := some call.method.name
  request? := some (call.method.requestPrototype.serialize call.request)
  response? := none
  error? := none

/-- The message that answers `m` with an error. -/
def errorMessage (m : RpcMessage) (error : RpcErrorCode) : RpcMessage :=
  { RpcMessage.empty with type? := some .response, id? := some m.id, error? := some error }

/-- The message that `doneCallback` sends for a response that serializes to `data`. -/
def responseMessage (id : Int) (data : Bytes) : RpcMessage :=
  { RpcMessage.empty with type? := some .response, id? := some (wireId id), response? := some data }

/-- The `int64_t` that is read from an id on the wire. -/
theorem int64_wireId {id : Int} (hlo : -9223372036854775808 ≤ id)
    (hhi : id < 9223372036854775808) : int64 (wireId id).toNat = id := by
  have hlt : uint64 id < 18446744073709551616 := by
    simp only [uint64]
    omega
  rw [wireId, UInt64.toNat_ofNat', Nat.mod_eq_of_lt hlt, int64_uint64 hlo hhi]

theorem idInt64_requestMessage {Msg : Type} {id : Int} (call : Call Msg)
    (hlo : -9223372036854775808 ≤ id) (hhi : id < 9223372036854775808) :
    (requestMessage id call).idInt64 = id :=
  int64_wireId hlo hhi

theorem idInt64_responseMessage {id : Int} (data : Bytes)
    (hlo : -9223372036854775808 ≤ id) (hhi : id < 9223372036854775808) :
    (responseMessage id data).idInt64 = id :=
  int64_wireId hlo hhi

/-! ### The channel -/

/-- `RpcChannel::OutstandingCall`. -/
structure OutstandingCall where
  response : Option Ptr
  done : Option Ptr
  deriving DecidableEq, Repr

/-- The entry that `CallMethod` makes for a call. -/
def Call.out {Msg : Type} (call : Call Msg) : OutstandingCall := ⟨call.response, call.done⟩

/-- `NewCallback(this, &RpcChannel::doneCallback, response, id)`. -/
structure DoneClosure where
  response : Option Ptr
  id : Int
  deriving DecidableEq, Repr

/-- `RpcChannel`. -/
structure RpcChannel (Msg : Type) where
  /-- The member `conn`; `none` where it was never initialised. -/
  conn : Option Ptr
  outstandings : Std.TreeMap Int OutstandingCall
  /-- The table that `services` points to, `none` for `NULL`. -/
  services : Option (ServiceTable Msg)

/-- A channel and the static counter of its process. -/
structure Process (Msg : Type) where
  /-- `RpcChannel::_id`. -/
  lastId : Int
  channel : RpcChannel Msg

/-- What a function of the channel does to the world. -/
inductive Effect (Msg : Type)
  /-- `outstandings[id] = out`, for the entry of a call. -/
  | store (id : Int) (call : Call Msg)
  /-- `rpcCodeDer.send(conn, m)`. -/
  | send (conn : Option Ptr) (m : RpcMessage)
  /-- `response->ParseFromString(data)`. -/
  | parseResponse (response : Ptr) (data : Bytes)
  /-- `done->Run()`. -/
  | runDone (done : Ptr)
  | deleteResponse (response : Ptr)
  | deleteDone (done : Ptr)
  /-- `service->CallMethod(method, NULL, request, response, closure)`. -/
  | callService (service : Service Msg) (method : MethodDescriptor Msg) (request : Msg)
      (closure : DoneClosure)

/-- The assertions of `src/rpcChannel.cpp`, in order. -/
inductive Assertion
  /-- `assert(conn == conn)`. -/
  | conn
  /-- `assert(message.has_response() || message.has_error())`. -/
  | responseOrError
  /-- `assert(service)`. -/
  | service
  /-- `assert(response&&id)`. -/
  | responseAndId
  deriving DecidableEq, Repr

variable {Msg : Type}

namespace RpcChannel

/-- The default constructor, which does not initialise `conn`. -/
def newDefault : RpcChannel Msg := ⟨none, ∅, none⟩

/-- `RpcChannel(Conn* conn)`. -/
def new (conn : Ptr) : RpcChannel Msg := ⟨some conn, ∅, none⟩

/-- `setConnection`: the parameter hides the member, so `conn = conn` assigns the parameter. -/
def setConnection (ch : RpcChannel Msg) (_conn : Option Ptr) : RpcChannel Msg := ch

/-- `setServices`: the parameter hides the member, so `services = services` assigns the
parameter. -/
def setServices (ch : RpcChannel Msg) (_services : Option (ServiceTable Msg)) : RpcChannel Msg :=
  ch

/-- `~RpcChannel`. Deleting `NULL` does nothing. -/
def destructor (ch : RpcChannel Msg) : List (Effect Msg) :=
  ch.outstandings.toList.flatMap fun entry =>
    (entry.2.response.map .deleteResponse).toList ++ (entry.2.done.map .deleteDone).toList

/-- `doneCallback`, on a response object that serializes to `data`. -/
def doneCallback (ch : RpcChannel Msg) (closure : DoneClosure) (data : Bytes) :
    Except Assertion (List (Effect Msg)) :=
  match closure.response with
  | none => .error .responseAndId
  | some response =>
    if closure.id = 0 then .error .responseAndId
    else .ok [.send ch.conn (responseMessage closure.id data), .deleteResponse response]

/-- The nested lookups of `onRpcMessage` on a request: the value of `error` after them, and the
call of the service. `fresh` is the response object that `New()` returns. -/
def dispatch (ch : RpcChannel Msg) (m : RpcMessage) (fresh : Ptr) :
    Except Assertion (RpcErrorCode × List (Effect Msg)) :=
  match ch.services with
  | none => .ok (.noService, [])
  | some services =>
    match services[m.service]? with
    | none => .ok (.noService, [])
    | some none => .error .service
    | some (some service) =>
      match service.findMethodByName m.method with
      | none => .ok (.noMethod, [])
      | some method =>
        let (parsed, request) := method.requestPrototype.parseFromArray m.request
        if parsed then
          .ok (.noError, [.callService service method request ⟨some fresh, m.idInt64⟩])
        else .ok (.invalidRequest, [])

/-- `onRpcMessage` on a `REQUEST`. An error is answered on the connection that was passed, and not
on the one that the channel is bound to. -/
def onRequest (ch : RpcChannel Msg) (conn : Option Ptr) (m : RpcMessage) (fresh : Ptr) :
    Except Assertion (List (Effect Msg)) := do
  let (error, called) ← ch.dispatch m fresh
  return if error ≠ .noError then called ++ [.send conn (errorMessage m error)] else called

end RpcChannel

namespace Process

/-- `CallMethod`. -/
def callMethod (p : Process Msg) (call : Call Msg) : Process Msg × List (Effect Msg) :=
  let id := int32 (p.lastId + 1)
  let channel := { p.channel with outstandings := p.channel.outstandings.insert id call.out }
  (⟨id, channel⟩, [.store id call, .send channel.conn (requestMessage id call)])

/-- `CallMethod`s one after the other. -/
def callMethods (p : Process Msg) : List (Call Msg) → Process Msg × List (Effect Msg)
  | [] => (p, [])
  | call :: calls =>
    let (p, sent) := p.callMethod call
    let (p, rest) := callMethods p calls
    (p, sent ++ rest)

/-- `done->Run()`, a closure that issues the calls `nested`. -/
def runDone (p : Process Msg) (nested : List (Call Msg)) :
    Option Ptr → Process Msg × List (Effect Msg)
  | none => (p, [])
  | some done =>
    let (p, sent) := p.callMethods nested
    (p, .runDone done :: sent)

/-- What `onRpcMessage` does with the entry `out` of the call that `m` answers, after the entry has
left the table. The response object is deleted at the end of the block. -/
def complete (p : Process Msg) (m : RpcMessage) (nested : List (Call Msg))
    (out : OutstandingCall) : Process Msg × List (Effect Msg) :=
  match out.response with
  | none => (p, [])
  | some response =>
    let parsed := if m.hasResponse then [.parseResponse response m.response] else []
    let (p, ran) := p.runDone nested out.done
    (p, parsed ++ ran ++ [.deleteResponse response])

/-- `outstandings.erase(it)`. -/
def forget (p : Process Msg) (id : Int) : Process Msg :=
  { p with channel := { p.channel with outstandings := p.channel.outstandings.erase id } }

/-- `onRpcMessage` on a `RESPONSE`. -/
def onResponse (p : Process Msg) (m : RpcMessage) (nested : List (Call Msg)) :
    Except Assertion (Process Msg × List (Effect Msg)) :=
  if m.hasResponse || m.hasError then
    match p.channel.outstandings[m.idInt64]? with
    | none => .ok (p, [])
    | some out => .ok ((p.forget m.idInt64).complete m nested out)
  else .error .responseOrError

/-- `onRpcMessage`. `nested` are the calls of the closure that is run, `fresh` the response object
of the service that is called. -/
def onRpcMessage (p : Process Msg) (conn : Option Ptr) (m : RpcMessage) (nested : List (Call Msg))
    (fresh : Ptr) : Except Assertion (Process Msg × List (Effect Msg)) :=
  -- Both sides of `conn == conn` are the parameter.
  if conn = conn then
    match m.type with
    | .response => p.onResponse m nested
    | .request => (p.channel.onRequest conn m fresh).map fun effects => (p, effects)
    | .error => .ok (p, [])
    | .unknow => .ok (p, [])
  else .error .conn

/-! ### The table of outstanding calls -/

variable {p : Process Msg} {m : RpcMessage}

theorem callMethods_cons (p : Process Msg) (call : Call Msg) (calls : List (Call Msg)) :
    p.callMethods (call :: calls) =
      (((p.callMethod call).1.callMethods calls).1,
        (p.callMethod call).2 ++ ((p.callMethod call).1.callMethods calls).2) := rfl

/-- Calls only enter the table and send messages. -/
theorem effect_callMethods {p : Process Msg} {calls : List (Call Msg)} {e : Effect Msg}
    (h : e ∈ (p.callMethods calls).2) :
    (∃ id call, e = .store id call) ∨ ∃ conn m, e = .send conn m := by
  induction calls generalizing p with
  | nil => cases h
  | cons call calls ih =>
    rw [callMethods_cons, List.mem_append] at h
    rcases h with h | h
    · simp only [callMethod, List.mem_cons, List.not_mem_nil, or_false] at h
      rcases h with rfl | rfl
      · exact Or.inl ⟨_, _, rfl⟩
      · exact Or.inr ⟨_, _, rfl⟩
    · exact ih h

theorem onResponse_of_none (hm : m.hasResponse || m.hasError)
    (h : p.channel.outstandings[m.idInt64]? = none) (nested : List (Call Msg)) :
    p.onResponse m nested = .ok (p, []) := by
  rw [onResponse, if_pos hm, h]

theorem onResponse_of_some (hm : m.hasResponse || m.hasError) {out : OutstandingCall}
    (h : p.channel.outstandings[m.idInt64]? = some out) (nested : List (Call Msg)) :
    p.onResponse m nested = .ok ((p.forget m.idInt64).complete m nested out) := by
  rw [onResponse, if_pos hm, h]

theorem onRpcMessage_response (hm : m.type = .response) (conn : Option Ptr)
    (nested : List (Call Msg)) (fresh : Ptr) :
    p.onRpcMessage conn m nested fresh = p.onResponse m nested := by
  rw [onRpcMessage, if_pos rfl, hm]

theorem onRpcMessage_request (hm : m.type = .request) (conn : Option Ptr)
    (nested : List (Call Msg)) (fresh : Ptr) :
    p.onRpcMessage conn m nested fresh =
      (p.channel.onRequest conn m fresh).map fun effects => (p, effects) := by
  rw [onRpcMessage, if_pos rfl, hm]

end Process

end MRpc
