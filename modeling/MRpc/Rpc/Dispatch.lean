import MRpc.Message.Wire
import MRpc.Rpc.Channel

/-!
# Dispatching a request, and the assertions on the way

Every field of a message is chosen by the peer. This file says what `onRpcMessage` does with a
request, table by table, and which messages end the process: the assertions are compiled in, and
one of them stands in `doneCallback`, on an id that was copied from the request and is checked only
when the service completes the call.

## Main definitions

* `ServiceTable.Finds`: the three lookups of a request succeed.
* `Process.AssertionFree`: neither the handling of a message nor the completion of the call it
  leads to trips an assertion.
* `Process.Harmless`: the messages that are handled so.

## Main results

* `RpcChannel.dispatch_cases`: the outcomes of a dispatch.
* `Process.assertionFree_iff`: a message trips no assertion exactly when it is harmless.
-/

namespace MRpc

open FixedWidth

variable {Msg : Type}

/-! ### The outcomes of a dispatch -/

/-- The table has a service of the name in `m`, with a method of the name in `m`, whose request
type parses the body of `m`. -/
structure ServiceTable.Finds (services : ServiceTable Msg) (m : RpcMessage)
    (service : Service Msg) (method : MethodDescriptor Msg) (request : Msg) : Prop where
  find_service : services[m.service]? = some (some service)
  find_method : service.findMethodByName m.method = some method
  parse_request : method.requestPrototype.parseFromArray m.request = (true, request)

namespace RpcChannel

variable {ch : RpcChannel Msg} {m : RpcMessage} {fresh : Ptr}

/-- A dispatch names an error and calls nothing, calls the service it finds, or runs into a `NULL`
service. -/
theorem dispatch_cases (ch : RpcChannel Msg) (m : RpcMessage) (fresh : Ptr) :
    (∃ error, error ≠ .noError ∧ ch.dispatch m fresh = .ok (error, []) ∧
      ∀ services, ch.services = some services → services[m.service]? ≠ some none ∧
        ∀ service method request, ¬ services.Finds m service method request) ∨
    (∃ services service method request, ch.services = some services ∧
      services.Finds m service method request ∧ ch.dispatch m fresh =
        .ok (.noError, [.callService service method request ⟨some fresh, m.idInt64⟩])) ∨
    (∃ services, ch.services = some services ∧ services[m.service]? = some none ∧
      ch.dispatch m fresh = .error .service) := by
  rw [dispatch]
  cases htable : ch.services with
  | none => exact Or.inl ⟨.noService, by decide, rfl, by simp⟩
  | some services =>
    simp only [Option.some.injEq, forall_eq', exists_eq_left']
    cases hservice : services[m.service]? with
    | none =>
      refine Or.inl ⟨.noService, by decide, rfl, by simp, fun _ _ _ h => ?_⟩
      cases hservice.symm.trans h.find_service
    | some entry =>
      cases entry with
      | none => exact Or.inr (Or.inr ⟨rfl, rfl⟩)
      | some service =>
        cases hmethod : service.findMethodByName m.method with
        | none =>
          refine Or.inl ⟨.noMethod, by decide, by simp [hmethod], by simp, fun _ _ _ h => ?_⟩
          cases hservice.symm.trans h.find_service
          cases hmethod.symm.trans h.find_method
        | some method =>
          rcases hparse : method.requestPrototype.parseFromArray m.request with ⟨parsed, request⟩
          cases parsed with
          | false =>
            refine Or.inl ⟨.invalidRequest, by decide, by simp [hmethod, hparse], by simp,
              fun _ _ _ h => ?_⟩
            cases hservice.symm.trans h.find_service
            cases hmethod.symm.trans h.find_method
            cases hparse.symm.trans h.parse_request
          | true =>
            exact Or.inr (Or.inl ⟨services, service, method, request, rfl,
              ⟨hservice, hmethod, hparse⟩, by simp [hmethod, hparse]⟩)

theorem onRequest_of_error {error : RpcErrorCode} (herror : error ≠ .noError)
    (h : ch.dispatch m fresh = .ok (error, [])) (conn : Option Ptr) :
    ch.onRequest conn m fresh = .ok [.send conn (errorMessage m error)] := by
  rw [onRequest, h]
  simp only [bind, Except.bind, if_pos herror, List.nil_append]
  rfl

theorem onRequest_of_noError {called : List (Effect Msg)}
    (h : ch.dispatch m fresh = .ok (.noError, called)) (conn : Option Ptr) :
    ch.onRequest conn m fresh = .ok called := by
  rw [onRequest, h]
  rfl

theorem onRequest_of_assertion {a : Assertion} (h : ch.dispatch m fresh = .error a)
    (conn : Option Ptr) : ch.onRequest conn m fresh = .error a := by
  rw [onRequest, h]
  rfl

/-- `doneCallback` for a response object that exists. -/
theorem doneCallback_of_ne_zero {response : Ptr} {id : Int} (hid : id ≠ 0) (data : Bytes) :
    ch.doneCallback ⟨some response, id⟩ data =
      .ok [.send ch.conn (responseMessage id data), .deleteResponse response] :=
  if_neg hid

theorem doneCallback_zero {response : Ptr} (data : Bytes) :
    ch.doneCallback ⟨some response, 0⟩ data = .error .responseAndId := rfl

end RpcChannel

/-! ### Assertions -/

/-- An id is read as zero exactly when it is zero. -/
theorem idInt64_eq_zero_iff {m : RpcMessage} : m.idInt64 = 0 ↔ m.id = 0 := by
  have hlt := m.id.toNat_lt
  have hzero : m.idInt64 = 0 ↔ m.id.toNat = 0 := by
    simp only [RpcMessage.idInt64, int64]
    omega
  rw [hzero, ← UInt64.toNat_inj]
  rfl

namespace Process

/-- Handling `m` trips no assertion, and neither does the completion of a call that it leads to,
whatever the service answers. -/
def AssertionFree (p : Process Msg) (conn : Option Ptr) (m : RpcMessage)
    (nested : List (Call Msg)) (fresh : Ptr) : Prop :=
  ∃ p' effects, p.onRpcMessage conn m nested fresh = .ok (p', effects) ∧
    ∀ service method request closure data, .callService service method request closure ∈ effects →
      ∃ sent, p'.channel.doneCallback closure data = .ok sent

/-- An answer carries a response or an error; a request does not name a `NULL` service, and one
that is served has an id. -/
def Harmless (p : Process Msg) (m : RpcMessage) : Prop :=
  (m.type = .response → m.hasResponse ∨ m.hasError) ∧
  (m.type = .request → ∀ services, p.channel.services = some services →
    services[m.service]? ≠ some none ∧
      ∀ service method request, services.Finds m service method request → m.id ≠ 0)

variable {p : Process Msg} {m : RpcMessage}

/-- The effects of an answer call no service. -/
theorem callService_notMem_complete {nested : List (Call Msg)} {out : OutstandingCall}
    {service : Service Msg} {method : MethodDescriptor Msg} {request : Msg}
    {closure : DoneClosure} :
    .callService service method request closure ∉ (p.complete m nested out).2 := by
  have hcalls : ∀ (calls : List (Call Msg)) (q : Process Msg),
      .callService service method request closure ∉ (q.callMethods calls).2 := by
    intro calls q h
    rcases effect_callMethods h with ⟨_, _, h⟩ | ⟨_, _, h⟩ <;> cases h
  rw [complete]
  cases out.response with
  | none => simp
  | some response =>
    cases hdone : out.done with
    | none => by_cases h : m.hasResponse <;> simp [runDone, h]
    | some done => by_cases h : m.hasResponse <;> simp [runDone, h, hcalls]

theorem assertionFree_response_iff (hm : m.type = .response) (conn : Option Ptr)
    (nested : List (Call Msg)) (fresh : Ptr) :
    p.AssertionFree conn m nested fresh ↔ m.hasResponse ∨ m.hasError := by
  rw [AssertionFree, onRpcMessage_response hm]
  constructor
  · rintro ⟨p', effects, h, -⟩
    by_contra hnone
    rw [onResponse, if_neg (by simpa using hnone)] at h
    cases h
  · intro hcarry
    have hm' : m.hasResponse || m.hasError := by simpa using hcarry
    cases hout : p.channel.outstandings[m.idInt64]? with
    | none => exact ⟨p, [], onResponse_of_none hm' hout nested, by simp⟩
    | some out =>
      refine ⟨_, _, onResponse_of_some hm' hout nested, ?_⟩
      intro service method request closure data hmem
      exact absurd hmem callService_notMem_complete

theorem assertionFree_request_iff (hm : m.type = .request) (conn : Option Ptr)
    (nested : List (Call Msg)) (fresh : Ptr) :
    p.AssertionFree conn m nested fresh ↔ ∀ services, p.channel.services = some services →
      services[m.service]? ≠ some none ∧
        ∀ service method request, services.Finds m service method request → m.id ≠ 0 := by
  rw [AssertionFree, onRpcMessage_request hm]
  rcases p.channel.dispatch_cases m fresh with
    ⟨error, herror, hdisp, hnone⟩ | ⟨services, service, method, request, htable, hfinds, hdisp⟩ |
      ⟨services, htable, hnull, hdisp⟩
  · rw [RpcChannel.onRequest_of_error herror hdisp]
    refine iff_of_true ⟨p, _, rfl, by simp⟩ fun services htable => ?_
    obtain ⟨hnull, hfinds⟩ := hnone services htable
    exact ⟨hnull, fun service method request h => absurd h (hfinds service method request)⟩
  · rw [RpcChannel.onRequest_of_noError hdisp, htable]
    simp only [Option.some.injEq, forall_eq']
    constructor
    · rintro ⟨p', effects, heff, hdone⟩
      cases heff
      refine ⟨by simp [hfinds.find_service], fun _ _ _ _ hid => ?_⟩
      obtain ⟨sent, hsent⟩ := hdone service method request _ [] (List.mem_singleton.mpr rfl)
      rw [idInt64_eq_zero_iff.mpr hid, RpcChannel.doneCallback_zero] at hsent
      cases hsent
    · rintro ⟨-, hid⟩
      refine ⟨p, _, rfl, fun service' method' request' closure data hmem => ?_⟩
      obtain ⟨-, -, -, rfl⟩ : service' = service ∧ method' = method ∧ request' = request ∧
          closure = ⟨some fresh, m.idInt64⟩ := by simpa using hmem
      have hne : m.idInt64 ≠ 0 := fun h => hid _ _ _ hfinds (idInt64_eq_zero_iff.mp h)
      exact ⟨_, RpcChannel.doneCallback_of_ne_zero hne data⟩
  · rw [RpcChannel.onRequest_of_assertion hdisp, htable]
    refine iff_of_false ?_ fun h => (h services rfl).1 hnull
    rintro ⟨p', effects, h, -⟩
    cases h

/-- **Which messages trip an assertion.** Whatever the table of services and the outstanding calls
are, handling a message, and completing the call that it leads to, trips no assertion exactly when
the message is harmless. -/
theorem assertionFree_iff (p : Process Msg) (conn : Option Ptr) (m : RpcMessage)
    (nested : List (Call Msg)) (fresh : Ptr) :
    p.AssertionFree conn m nested fresh ↔ p.Harmless m := by
  rw [Harmless]
  cases hm : m.type with
  | response => simp [assertionFree_response_iff hm]
  | request => simp [assertionFree_request_iff hm]
  | error =>
    refine iff_of_true ⟨p, [], ?_, by simp⟩ (by simp)
    rw [onRpcMessage, if_pos rfl, hm]
  | unknow =>
    refine iff_of_true ⟨p, [], ?_, by simp⟩ (by simp)
    rw [onRpcMessage, if_pos rfl, hm]

end Process

/-! ### Messages that end the process -/

/-- A message type whose objects are their own bytes. -/
def rawMessage : Protobuf Bytes where
  new := []
  byteSize data := data.length
  serialize data := data
  parseFromArray data := (true, data)

/-- The method `Put` of `mRpc.TestMessage` in `test/rpc.proto`. -/
def putMethod : MethodDescriptor Bytes :=
  ⟨putRequest.service, putRequest.method, rawMessage, rawMessage⟩

/-- The service `mRpc.TestMessage`, with the method `Put`. -/
def testMessage : Service Bytes := ⟨putRequest.service, [putMethod]⟩

/-- A call of `Put` with the given response object and closure. -/
def putCall (response done : Ptr) : Call Bytes :=
  ⟨putMethod, none, [], some response, some done⟩

/-- The table of a server that has registered `mRpc.TestMessage`. -/
def testServices : ServiceTable Bytes :=
  Std.TreeMap.ofList [(testMessage.fullName, some testMessage)]

/-- A channel that serves `mRpc.TestMessage` on the connection at address 1. -/
def testServer : Process Bytes := ⟨0, some 1, ∅, some testServices⟩

/-- A `RESPONSE` with no other field, two bytes on the wire, trips the first assertion; a `Put`
without an id is served, and trips the last one when the service completes it. -/
theorem not_assertionFree_bareResponse :
    rpcCodec.proto.parseFromArray [8, 2] =
      (true, { RpcMessage.empty with type? := some .response }) ∧
    ¬ testServer.AssertionFree (some 1) { RpcMessage.empty with type? := some .response } [] 2 ∧
    rpcCodec.proto.parseFromArray
      (rpcCodec.proto.serialize { putRequest with id? := none }) =
        (true, { putRequest with id? := none }) ∧
    ¬ testServer.AssertionFree (some 1) { putRequest with id? := none } [] 2 := by
  refine ⟨by decide +kernel, fun h => ?_, by decide +kernel, fun h => ?_⟩
  · rw [Process.assertionFree_response_iff rfl] at h
    exact absurd h (by decide)
  · rw [Process.assertionFree_request_iff rfl] at h
    exact (h _ rfl).2 testMessage _ [] ⟨rfl, rfl, rfl⟩ rfl

end MRpc
