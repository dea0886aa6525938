import MRpc.Rpc.Dispatch

/-!
# What a caller sees of the outcome of a call

When the closure of a call runs, its caller can look at the controller that it passed to
`CallMethod` and at the response object. The channel does not use the controller, it asserts that an
answer carries a response or an error and then ignores the error, and it ignores the result of
`ParseFromString`. So a failed call looks like a successful one whenever the content that the
failure leaves in the response object is the content that the success puts there: for an error, the
content that the caller passed in.

## Main definitions

* `Objects`, `Objects.whenDone`: controllers and response objects, and their state when a closure is
  run.
* `Process.observation`: what the caller of a call observes when an answer is handled.
* `Call.Failed`, `Call.Succeeded`: the outcomes that an answer can report.

## Main results

* `Process.observation_eq`: the observation is the untouched controller and what was parsed.
* `Process.observation_ne_iff`: when a failure can be told from a success.
-/

namespace MRpc

open FixedWidth

variable {κ Msg : Type}

/-! ### Observations -/

/-- The objects that a caller can look at, by their addresses: the states of the controllers and the
contents of the response objects. -/
structure Objects (κ Msg : Type) where
  controller : Ptr → κ
  response : Ptr → Msg

namespace Objects

/-- What an effect does to the objects. The response object has the type `P`; `ParseFromString`
clears it first. -/
def apply (P : Protobuf Msg) (o : Objects κ Msg) : Effect Msg → Objects κ Msg
  | .parseResponse response data =>
    { o with response := Function.update o.response response (P.parseFromArray data).2 }
  | _ => o

/-- The objects as the closure `done` finds them when it is run. -/
def whenDone (P : Protobuf Msg) (done : Ptr) :
    Objects κ Msg → List (Effect Msg) → Option (Objects κ Msg)
  | _, [] => none
  | o, .runDone ran :: effects => if ran = done then some o else whenDone P done o effects
  | o, e :: effects => whenDone P done (o.apply P e) effects

end Objects

/-- What the caller of a call with controller, response object and closure observes when its closure
is run: the state of the controller and the content of the response object. -/
def Process.observation (p : Process Msg) (o : Objects κ Msg) (call : Call Msg) (m : RpcMessage)
    (nested : List (Call Msg)) : Option (κ × Msg) := do
  let controller ← call.controller
  let response ← call.response
  let done ← call.done
  let (_, effects) ← (p.onRpcMessage p.channel.conn m nested 0).toOption
  let o ← o.whenDone call.method.responsePrototype done effects
  return (o.controller controller, o.response response)

/-- The answer reports a failure: an error code and no response, or a response that does not
parse. -/
def Call.Failed (call : Call Msg) (r : RpcMessage) : Prop :=
  (r.hasError ∧ ¬ r.hasResponse) ∨
    (r.hasResponse ∧ (call.method.responsePrototype.parseFromArray r.response).1 = false)

/-- The answer carries a response that parses. -/
def Call.Succeeded (call : Call Msg) (s : RpcMessage) : Prop :=
  s.hasResponse ∧ (call.method.responsePrototype.parseFromArray s.response).1 = true

/-- The content of a response object after an answer, when it was `before` at the call: what
`ParseFromString` leaves of the response, also of one that does not parse, or the old content if the
answer has no response. -/
def Call.content (call : Call Msg) (before : Msg) (m : RpcMessage) : Msg :=
  if m.hasResponse then (call.method.responsePrototype.parseFromArray m.response).2 else before

namespace Process

variable {p : Process Msg} {o : Objects κ Msg} {call : Call Msg}
  {controller response done : Ptr} {m : RpcMessage}

/-- The effects of an answer to a call with a response object and a closure. -/
theorem complete_of_some {out : OutstandingCall} (hresponse : out.response = some response)
    (hdone : out.done = some done) (nested : List (Call Msg)) :
    (p.complete m nested out).2 =
      (if m.hasResponse then [.parseResponse response m.response] else []) ++
        .runDone done :: ((p.callMethods nested).2 ++ [.deleteResponse response]) := by
  simp only [complete, hresponse, hdone, runDone, List.append_assoc, List.cons_append]

/-- When an answer to an outstanding call is handled, its closure finds the controller as it was. -/
theorem observation_eq (htable : p.channel.outstandings[m.idInt64]? = some call.out)
    (hcontroller : call.controller = some controller) (hresponse : call.response = some response)
    (hdone : call.done = some done) (htype : m.type = .response)
    (hm : m.hasResponse || m.hasError) (nested : List (Call Msg)) :
    p.observation o call m nested =
      some (o.controller controller, call.content (o.response response) m) := by
  have heffects := complete_of_some (p := p.forget m.idInt64) (m := m)
    (show call.out.response = some response from hresponse) hdone nested
  simp only [observation, hcontroller, hresponse, hdone, onRpcMessage_response htype,
    onResponse_of_some hm htable, Option.bind_eq_bind, Option.bind_some, Except.toOption, heffects,
    Call.content]
  cases m.hasResponse
  · simp [Objects.whenDone]
  · simp [Objects.whenDone, Objects.apply]

/-- **When a failure can be told from a success.** For every outstanding call with a controller, a
response object and a closure, every answer `r` that reports a failure and every answer `s` that
carries a response that parses, the closure runs in both cases, and the caller observes something
different after `r` than after `s` exactly when `r` leaves another content in the response object
than the message of `s`. -/
theorem observation_ne_iff {r s : RpcMessage} {id : Int}
    (htable : p.channel.outstandings[id]? = some call.out)
    (hcontroller : call.controller = some controller) (hresponse : call.response = some response)
    (hdone : call.done = some done) (hr : r.type = .response ∧ r.idInt64 = id)
    (hs : s.type = .response ∧ s.idInt64 = id) (hfailed : call.Failed r)
    (hsucceeded : call.Succeeded s) (nested nested' : List (Call Msg)) :
    (p.observation o call r nested).isSome ∧ (p.observation o call s nested').isSome ∧
      (p.observation o call r nested ≠ p.observation o call s nested' ↔
        call.content (o.response response) r ≠
          (call.method.responsePrototype.parseFromArray s.response).2) := by
  obtain ⟨hrtype, rfl⟩ := hr
  obtain ⟨hstype, hid⟩ := hs
  have hrcarries : r.hasResponse || r.hasError := by
    rcases hfailed with ⟨herror, -⟩ | ⟨hresp, -⟩ <;> simp [*]
  have hscarries : s.hasResponse || s.hasError := by simp [hsucceeded.1]
  have hcontent : call.content (o.response response) s =
      (call.method.responsePrototype.parseFromArray s.response).2 := if_pos hsucceeded.1
  rw [observation_eq htable hcontroller hresponse hdone hrtype hrcarries,
    observation_eq (hid ▸ htable) hcontroller hresponse hdone hstype hscarries, hcontent]
  refine ⟨rfl, rfl, ?_⟩
  simp only [ne_eq, Option.some.injEq, Prod.mk.injEq, true_and]

end Process

/-- A call of `Put` with a controller. -/
def controlledPut : Call Bytes := { putCall 10 11 with controller := some 5 }

/-- A client that has made the call and waits for the answer. -/
def waitingClient : Process Bytes := ((⟨0, .new 1⟩ : Process Bytes).callMethod controlledPut).1

/-- The objects of a caller whose response object holds `data`. -/
def callerObjects (data : Bytes) : Objects Unit Bytes := ⟨fun _ => (), fun _ => data⟩

theorem outstanding_waitingClient :
    waitingClient.channel.outstandings[(1 : Int)]? = some controlledPut.out := by
  decide +kernel

/-- With a response object that was not empty, the error can be told from an empty result. -/
theorem observation_ne_error :
    waitingClient.observation (callerObjects [1]) controlledPut
        (errorMessage putRequest .noService) [] ≠
      waitingClient.observation (callerObjects [1]) controlledPut (responseMessage 1 []) [] :=
  (Process.observation_ne_iff (o := callerObjects [1]) outstanding_waitingClient rfl rfl rfl
    (by decide +kernel) (by decide +kernel) (Or.inl (by decide)) ⟨rfl, rfl⟩ [] []).2.2.mpr
    (by decide)

/-- A server without services answers a `Put` with an error. The caller, whose response object is
empty, observes what it would observe after an empty result. -/
theorem observation_error_eq_success :
    (⟨some 1, ∅, none⟩ : RpcChannel Bytes).onRequest (some 1) putRequest 2 =
        .ok [.send (some 1) (errorMessage putRequest .noService)] ∧
      waitingClient.channel.outstandings[(1 : Int)]? = some controlledPut.out ∧
      controlledPut.Failed (errorMessage putRequest .noService) ∧
      controlledPut.Succeeded (responseMessage 1 []) ∧
      waitingClient.observation (callerObjects []) controlledPut
        (errorMessage putRequest .noService) [] = some ((), []) ∧
      waitingClient.observation (callerObjects []) controlledPut (responseMessage 1 []) [] =
        some ((), []) := by
  refine ⟨rfl, outstanding_waitingClient, Or.inl (by decide), ⟨rfl, rfl⟩, ?_, ?_⟩
  · exact Process.observation_eq (by decide +kernel) rfl rfl rfl rfl rfl []
  · exact Process.observation_eq (by decide +kernel) rfl rfl rfl rfl rfl []

end MRpc
