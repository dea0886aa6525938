import MRpc.Lib.Simulation
import MRpc.Rpc.Agreement

/-!
# A connection on which both ends call and serve

`RpcChannel` is one class for both ends of a connection: it issues calls, serves requests and takes
answers, and all of this goes over one stream of messages in each direction. A request and an
answer that travel the same way are kept apart by their type alone, and the ids of the two ends
overlap, since each process counts from one.

An end is the process with the closures that its services hold and what has happened there. Its
functions return what it sends. Looking only at the calls of one end, and at how the other end
serves them, such a connection is a `Link` (`Duplex.calls`), and every step of the connection is at
most one step of this link.

## Main definitions

* `End`, `End.callMethod`, `End.receive`, `End.runClosure`: one end.
* `Duplex`, `Duplex.step`: the two ends and the streams between them.
* `Duplex.calls`: the calls of the left end, as a link.

## Main results

* `Duplex.calls_of_step`: a step of the connection is a run of both links.
* `Duplex.agreement_both`: agreement for the calls of both ends.
-/

namespace MRpc

open FixedWidth Machine

variable {Msg : Type}

/-! ### One end -/

/-- One end of a connection, with what has happened there. -/
structure End (Msg : Type) where
  process : Process Msg
  /-- The closures that services of this end have not run yet. -/
  closures : List HeldClosure
  /-- The number of `CallMethod`s in the process. -/
  callCount : Nat
  /-- The calls of this end, with their ids. -/
  issued : List (Int × Call Msg)
  /-- The requests that this end has handled. -/
  handled : List RpcMessage
  /-- The answers that this end has sent, each after the request it was produced for. -/
  produced : List (RpcMessage × RpcMessage)
  /-- The answers that this end has handled, with what it did. -/
  completed : List (RpcMessage × List (Effect Msg))

namespace End

/-- A new channel with the given table of services. -/
def init (conn : Ptr) (services : Option (ServiceTable Msg)) : End Msg where
  process := ⟨0, some conn, ∅, services⟩
  closures := []
  callCount := 0
  issued := []
  handled := []
  produced := []
  completed := []

variable (e : End Msg)

/-- The end did `effects` for itself, and its process is now `p`. -/
def called (p : Process Msg) (effects : List (Effect Msg)) : End Msg :=
  { e with
    process := p
    callCount := e.callCount + (storedCalls effects).length
    issued := e.issued ++ storedCalls effects }

/-- The end did `effects` on behalf of `request`. -/
def served (request : RpcMessage) (effects : List (Effect Msg)) : End Msg :=
  { e with
    closures := e.closures ++ (closuresIn effects).map fun closure => ⟨request, closure⟩
    produced := e.produced ++
      (sentOn e.process.channel.conn effects).map fun response => (request, response) }

/-- `CallMethod`, and what it sends. -/
def callMethod (call : Call Msg) : End Msg × List RpcMessage :=
  let (p, effects) := e.process.callMethod call
  (e.called p effects, sentOn e.process.channel.conn effects)

/-- `CallMethod` on another channel of the process. -/
def otherCall : End Msg :=
  { e with
    process := { e.process with lastId := int32 (e.process.lastId + 1) }
    callCount := e.callCount + 1 }

/-- `onRpcMessage`, and what it sends. -/
def receive (m : RpcMessage) (fresh : Ptr) (nested : List (Call Msg)) :
    Option (End Msg × List RpcMessage) :=
  match e.process.onRpcMessage e.process.channel.conn m nested fresh with
  | .error _ => none
  | .ok (p, effects) =>
    let sent := sentOn e.process.channel.conn effects
    match m.type with
    | .request =>
      some ({ e with process := p, handled := e.handled ++ [m] }.served m effects, sent)
    | .response =>
      some ({ e with completed := e.completed ++ [(m, effects)] }.called p effects, sent)
    | _ => some ({ e with process := p }, sent)

/-- A service runs one of the closures it holds, on a response that serializes to `data`. -/
def runClosure (index : Nat) (data : Bytes) : Option (End Msg × List RpcMessage) :=
  match e.closures[index]? with
  | none => none
  | some held =>
    match e.process.channel.doneCallback held.closure data with
    | .error _ => none
    | .ok effects =>
      some ({ e with closures := e.closures.eraseIdx index }.served held.request effects,
        sentOn e.process.channel.conn effects)

end End

/-! ### Both ends -/

/-- The two ends of a connection, and what is on the way in each direction, the oldest first. -/
structure Duplex (Msg : Type) where
  left : End Msg
  right : End Msg
  toRight : List RpcMessage
  toLeft : List RpcMessage

/-- What may happen at one end. -/
inductive EndAction (Msg : Type)
  | callMethod (call : Call Msg)
  | otherCall
  /-- The next message arrives: `fresh` is the response object that is made for a request, and
  `nested` are the calls of the closure that an answer runs. -/
  | receive (fresh : Ptr) (nested : List (Call Msg))
  | runClosure (index : Nat) (data : Bytes)

/-- The ends of a connection. -/
inductive Side
  | left
  | right
  deriving DecidableEq, Repr

namespace Duplex

/-- A new connection. -/
def init (leftConn rightConn : Ptr) (leftServices rightServices : Option (ServiceTable Msg)) :
    Duplex Msg :=
  ⟨.init leftConn leftServices, .init rightConn rightServices, [], []⟩

/-- The connection seen from the other end. -/
def swap (s : Duplex Msg) : Duplex Msg := ⟨s.right, s.left, s.toLeft, s.toRight⟩

/-- A step of the left end; an assertion that fails ends the run. -/
def stepLeft (s : Duplex Msg) : EndAction Msg → Option (Duplex Msg)
  | .callMethod call =>
    let (e, sent) := s.left.callMethod call
    some { s with left := e, toRight := s.toRight ++ sent }
  | .otherCall => some { s with left := s.left.otherCall }
  | .receive fresh nested =>
    match s.toLeft with
    | [] => none
    | m :: rest =>
      match s.left.receive m fresh nested with
      | none => none
      | some (e, sent) => some { s with left := e, toLeft := rest, toRight := s.toRight ++ sent }
  | .runClosure index data =>
    match s.left.runClosure index data with
    | none => none
    | some (e, sent) => some { s with left := e, toRight := s.toRight ++ sent }

/-- A step of one of the ends. -/
def step (s : Duplex Msg) : Side × EndAction Msg → Option (Duplex Msg)
  | (.left, a) => s.stepLeft a
  | (.right, a) => (s.swap.stepLeft a).map swap

@[simp] theorem swap_swap (s : Duplex Msg) : s.swap.swap = s := rfl

/-- A step of the right end is a step of the left end, seen from the other end. -/
theorem step_right_iff {s t : Duplex Msg} {a : EndAction Msg} :
    s.step (.right, a) = some t ↔ s.swap.stepLeft a = some t.swap := by
  rw [step, Option.map_eq_some_iff]
  constructor
  · rintro ⟨u, hu, rfl⟩
    exact hu
  · intro h
    exact ⟨t.swap, h, rfl⟩

/-- What the steps of the left end preserve, seen from either end, every step preserves. -/
theorem step_rule {P : Duplex Msg → Duplex Msg → Prop} (hswap : ∀ s t, P s t → P s.swap t.swap)
    (hleft : ∀ s a t, stepLeft s a = some t → P s t) {s t : Duplex Msg}
    {a : Side × EndAction Msg} (h : s.step a = some t) : P s t := by
  obtain ⟨side, a⟩ := a
  cases side with
  | left => exact hleft s a t h
  | right => exact hswap _ _ (hleft s.swap a t.swap (step_right_iff.mp h))

end Duplex

/-! ### The two halves of a process -/

namespace Process

/-- The process as far as its own calls need it. -/
def asCaller (p : Process Msg) : Process Msg := ⟨p.lastId, { p.channel with services := none }⟩

/-- The process as far as it serves requests. -/
def asServer (p : Process Msg) : Process Msg := ⟨0, { p.channel with outstandings := ∅ }⟩

theorem callMethods_asCaller (p : Process Msg) (calls : List (Call Msg)) :
    p.asCaller.callMethods calls =
      ((p.callMethods calls).1.asCaller, (p.callMethods calls).2) := by
  induction calls generalizing p with
  | nil => rfl
  | cons call calls ih =>
    have hcall : p.asCaller.callMethod call =
        ((p.callMethod call).1.asCaller, (p.callMethod call).2) := rfl
    rw [callMethods_cons, callMethods_cons, hcall, ih]

theorem callMethods_asServer (p : Process Msg) (calls : List (Call Msg)) :
    (p.callMethods calls).1.asServer = p.asServer := by
  induction calls generalizing p with
  | nil => rfl
  | cons call calls ih =>
    rw [callMethods_cons]
    exact ih (p.callMethod call).1

theorem complete_asCaller (p : Process Msg) (m : RpcMessage) (nested : List (Call Msg))
    (out : OutstandingCall) :
    p.asCaller.complete m nested out =
      ((p.complete m nested out).1.asCaller, (p.complete m nested out).2) := by
  rcases out with ⟨_ | response, _ | done⟩
  · rfl
  · rfl
  · rfl
  · simp only [complete, runDone, callMethods_asCaller]

theorem complete_asServer (p : Process Msg) (m : RpcMessage) (nested : List (Call Msg))
    (out : OutstandingCall) : (p.complete m nested out).1.asServer = p.asServer := by
  obtain ⟨calls, hcalls, -⟩ := Link.Inv.exists_calls_complete p m nested out
  rw [hcalls, callMethods_asServer]

variable {p q : Process Msg} {m : RpcMessage} {nested : List (Call Msg)}
  {effects : List (Effect Msg)}

/-- An answer is handled by the calling half. -/
theorem onResponse_asCaller (h : p.onResponse m nested = .ok (q, effects)) :
    p.asCaller.onResponse m nested = .ok (q.asCaller, effects) := by
  rw [onResponse] at h ⊢
  split_ifs at h ⊢ with hcarry
  have hout : p.asCaller.channel.outstandings[m.idInt64]? =
      p.channel.outstandings[m.idInt64]? := rfl
  rw [hout]
  split at h
  · cases h
    rfl
  · rename_i out _
    have hpair := Except.ok.inj h
    have hcomplete := complete_asCaller (p.forget m.idInt64) m nested out
    rw [hpair] at hcomplete
    exact congrArg Except.ok hcomplete

/-- An answer does not change the serving half. -/
theorem onResponse_asServer (h : p.onResponse m nested = .ok (q, effects)) :
    q.asServer = p.asServer := by
  rw [onResponse] at h
  split_ifs at h with hcarry
  split at h
  · cases h
    rfl
  · rename_i out _
    have hcomplete := complete_asServer (p.forget m.idInt64) m nested out
    rw [Except.ok.inj h] at hcomplete
    exact hcomplete

/-- Calls send requests. -/
theorem type_of_mem_sentOn_callMethods {conn : Option Ptr} {calls : List (Call Msg)}
    (h : m ∈ sentOn conn (p.callMethods calls).2) : m.type = .request := by
  induction calls generalizing p with
  | nil => cases h
  | cons call calls ih =>
    rw [callMethods_cons, sentOn_append, List.mem_append] at h
    rcases h with h | h
    · simp only [callMethod, sentOn, List.filterMap_cons, List.filterMap_nil] at h
      split_ifs at h
      · obtain rfl := List.mem_singleton.mp h
        rfl
      · cases h
    · exact ih h

/-- The calls of a closure are all that the handling of an answer sends. -/
theorem type_of_mem_sentOn_onResponse {conn : Option Ptr} {r : RpcMessage}
    (h : p.onResponse m nested = .ok (q, effects)) (hr : r ∈ sentOn conn effects) :
    r.type = .request := by
  rw [onResponse] at h
  split_ifs at h with hcarry
  split at h
  · cases h
    cases hr
  · rename_i out _
    obtain ⟨calls, -, hsent, -⟩ :=
      Link.Inv.exists_calls_complete (p.forget m.idInt64) m nested out
    have heffects : ((p.forget m.idInt64).complete m nested out).2 = effects := by
      rw [Except.ok.inj h]
    rw [← heffects, hsent] at hr
    exact type_of_mem_sentOn_callMethods hr

end Process

namespace RpcChannel

variable {ch : RpcChannel Msg} {m r : RpcMessage} {conn conn' : Option Ptr}
  {effects : List (Effect Msg)}

/-- A request is answered with a `RESPONSE`, if at all, and enters no call. -/
theorem onRequest_effects {fresh : Ptr} (h : ch.onRequest conn m fresh = .ok effects) :
    (∀ r ∈ sentOn conn' effects, r.type = .response) ∧ storedCalls effects = [] := by
  rcases ch.dispatch_cases m fresh with
    ⟨error, herror, hdisp, -⟩ | ⟨_, service, method, request, -, -, hdisp⟩ | ⟨_, -, -, hdisp⟩
  · rw [onRequest_of_error herror hdisp] at h
    cases h
    refine ⟨fun r hr => ?_, rfl⟩
    simp only [sentOn, List.filterMap_cons, List.filterMap_nil] at hr
    split_ifs at hr
    · obtain rfl := List.mem_singleton.mp hr
      rfl
    · cases hr
  · rw [onRequest_of_noError hdisp] at h
    cases h
    exact ⟨by simp [sentOn], rfl⟩
  · rw [onRequest_of_assertion hdisp] at h
    cases h

/-- A closure sends a `RESPONSE`. -/
theorem type_of_mem_sentOn_doneCallback {closure : DoneClosure} {data : Bytes}
    (h : ch.doneCallback closure data = .ok effects) (hr : r ∈ sentOn conn effects) :
    r.type = .response := by
  rw [doneCallback] at h
  split at h
  · cases h
  · split_ifs at h
    cases h
    simp only [sentOn, List.filterMap_cons, List.filterMap_nil] at hr
    split_ifs at hr
    · obtain rfl := List.mem_singleton.mp hr
      rfl
    · cases hr

end RpcChannel

namespace End

variable {e e' : End Msg} {sent : List RpcMessage}

/-- What an end does with a message, by the type of the message. -/
theorem receive_cases {m : RpcMessage} {fresh : Ptr} {nested : List (Call Msg)}
    (h : e.receive m fresh nested = some (e', sent)) :
    (m.type = .request ∧ ∃ effects,
      e.process.channel.onRequest e.process.channel.conn m fresh = .ok effects ∧
      e' = { e with handled := e.handled ++ [m] }.served m effects ∧
      sent = sentOn e.process.channel.conn effects) ∨
    (m.type = .response ∧ ∃ p effects, e.process.onResponse m nested = .ok (p, effects) ∧
      e' = { e with completed := e.completed ++ [(m, effects)] }.called p effects ∧
      sent = sentOn e.process.channel.conn effects) ∨
    (m.type ≠ .request ∧ m.type ≠ .response ∧ e' = e ∧ sent = []) := by
  rw [receive] at h
  cases hm : m.type with
  | request =>
    rw [Process.onRpcMessage_request hm] at h
    cases heffects : e.process.channel.onRequest e.process.channel.conn m fresh with
    | error a => simp [heffects, Except.map] at h
    | ok effects =>
      simp only [heffects, Except.map, hm, Option.some.injEq, Prod.mk.injEq] at h
      exact Or.inl ⟨rfl, effects, rfl, h.1.symm, h.2.symm⟩
  | response =>
    rw [Process.onRpcMessage_response hm] at h
    cases heffects : e.process.onResponse m nested with
    | error a => simp [heffects] at h
    | ok r =>
      simp only [heffects, hm, Option.some.injEq, Prod.mk.injEq] at h
      exact Or.inr (Or.inl ⟨rfl, r.1, r.2, rfl, h.1.symm, h.2.symm⟩)
  | error =>
    simp only [Process.onRpcMessage, ↓reduceIte, hm, Option.some.injEq, Prod.mk.injEq] at h
    exact Or.inr (Or.inr ⟨by decide, by decide, h.1.symm, h.2.symm⟩)
  | unknow =>
    simp only [Process.onRpcMessage, ↓reduceIte, hm, Option.some.injEq, Prod.mk.injEq] at h
    exact Or.inr (Or.inr ⟨by decide, by decide, h.1.symm, h.2.symm⟩)

theorem runClosure_cases {index : Nat} {data : Bytes}
    (h : e.runClosure index data = some (e', sent)) :
    ∃ held effects, e.closures[index]? = some held ∧
      e.process.channel.doneCallback held.closure data = .ok effects ∧
      e' = { e with closures := e.closures.eraseIdx index }.served held.request effects ∧
      sent = sentOn e.process.channel.conn effects := by
  rw [runClosure] at h
  split at h
  · cases h
  · rename_i held hheld
    split at h
    · cases h
    · rename_i effects hok
      cases h
      exact ⟨held, effects, hheld, hok, rfl, rfl⟩

end End

/-! ### The calls of one end, as a link -/

/-- The requests in a stream of messages. -/
def requestsIn (ms : List RpcMessage) : List RpcMessage := ms.filter fun m => m.type = .request

/-- The answers in a stream of messages. -/
def responsesIn (ms : List RpcMessage) : List RpcMessage := ms.filter fun m => m.type = .response

section Streams

variable (ms ns : List RpcMessage)

@[simp] theorem requestsIn_append : requestsIn (ms ++ ns) = requestsIn ms ++ requestsIn ns :=
  List.filter_append _ _

@[simp] theorem responsesIn_append : responsesIn (ms ++ ns) = responsesIn ms ++ responsesIn ns :=
  List.filter_append _ _

variable {ms}

theorem requestsIn_eq_self (h : ∀ m ∈ ms, m.type = .request) : requestsIn ms = ms :=
  List.filter_eq_self.mpr fun m hm => by simp [h m hm]

theorem responsesIn_eq_self (h : ∀ m ∈ ms, m.type = .response) : responsesIn ms = ms :=
  List.filter_eq_self.mpr fun m hm => by simp [h m hm]

theorem requestsIn_eq_nil (h : ∀ m ∈ ms, m.type = .response) : requestsIn ms = [] :=
  List.filter_eq_nil_iff.mpr fun m hm => by simp [h m hm]

theorem responsesIn_eq_nil (h : ∀ m ∈ ms, m.type = .request) : responsesIn ms = [] :=
  List.filter_eq_nil_iff.mpr fun m hm => by simp [h m hm]

end Streams

namespace Duplex

/-- The calls of the left end and how the right end serves them. -/
def calls (s : Duplex Msg) : Link Msg where
  client := s.left.process.asCaller
  server := s.right.process.asServer
  requests := requestsIn s.toRight
  responses := responsesIn s.toLeft
  closures := s.right.closures
  callCount := s.left.callCount
  issued := s.left.issued
  handled := s.right.handled
  produced := s.right.produced
  completed := s.left.completed

variable {s : Duplex Msg}

/-- A call of the left end is a call of the client in the link of its calls, and unseen in the
other one. -/
theorem calls_callMethod (call : Call Msg) {t : Duplex Msg}
    (h : s.stepLeft (.callMethod call) = some t) :
    s.calls.step (.callMethod call) = some t.calls ∧ t.swap.calls = s.swap.calls := by
  set effects := (s.left.process.callMethod call).2 with heffects
  obtain rfl : { s with
      left := s.left.called (s.left.process.callMethod call).1 effects
      toRight := s.toRight ++ sentOn s.left.process.channel.conn effects } = t :=
    Option.some.inj h
  have htype : ∀ m ∈ sentOn s.left.process.channel.conn effects, m.type = .request := by
    simp [heffects, Process.callMethod, sentOn, requestMessage, RpcMessage.type]
  constructor
  · simp only [calls, End.called, requestsIn_append, requestsIn_eq_self htype]
    rfl
  · simp only [calls, swap, End.called, responsesIn_append, responsesIn_eq_nil htype,
      List.append_nil]
    rfl

/-- The server half serves a request, and the other link does not see it. -/
theorem calls_receive_request {m : RpcMessage} {rest : List RpcMessage} {fresh : Ptr}
    {effects : List (Effect Msg)} (htoLeft : s.toLeft = m :: rest) (hm : m.type = .request)
    (h : s.left.process.channel.onRequest s.left.process.channel.conn m fresh = .ok effects)
    {t : Duplex Msg} (ht : t = { s with
      left := { s.left with handled := s.left.handled ++ [m] }.served m effects
      toLeft := rest
      toRight := s.toRight ++ sentOn s.left.process.channel.conn effects }) :
    t.calls = s.calls ∧ s.swap.calls.step (.deliverRequest fresh) = some t.swap.calls := by
  subst ht
  have htype : ∀ r ∈ sentOn s.left.process.channel.conn effects, r.type = .response :=
    (RpcChannel.onRequest_effects h).1
  have hne : m.type ≠ .response := by simp [hm]
  constructor
  · simp only [calls, End.served, requestsIn_append, requestsIn_eq_nil htype, List.append_nil,
      htoLeft, responsesIn, List.filter_cons, hne, decide_false, Bool.false_eq_true, ↓reduceIte]
  · have hrequests : s.swap.calls.requests = m :: requestsIn rest := by
      simp [calls, swap, htoLeft, requestsIn, hm]
    have hserver : s.swap.calls.server.onRpcMessage s.swap.calls.server.channel.conn m [] fresh =
        .ok (s.left.process.asServer, effects) := by
      have hreq : s.swap.calls.server.channel.onRequest s.swap.calls.server.channel.conn m fresh =
          .ok effects := h
      rw [Process.onRpcMessage_request hm, hreq]
      rfl
    simp only [Link.step, hrequests, hserver]
    simp only [calls, swap, Link.serverDid, End.served, responsesIn_append,
      responsesIn_eq_self htype]
    rfl

/-- The calling half handles an answer, and the other link does not see it. -/
theorem calls_receive_response {m : RpcMessage} {rest : List RpcMessage}
    {nested : List (Call Msg)} {p : Process Msg} {effects : List (Effect Msg)}
    (htoLeft : s.toLeft = m :: rest) (hm : m.type = .response)
    (h : s.left.process.onResponse m nested = .ok (p, effects))
    {t : Duplex Msg} (ht : t = { s with
      left := { s.left with completed := s.left.completed ++ [(m, effects)] }.called p effects
      toLeft := rest
      toRight := s.toRight ++ sentOn s.left.process.channel.conn effects }) :
    s.calls.step (.deliverResponse nested) = some t.calls ∧ t.swap.calls = s.swap.calls := by
  subst ht
  have htype : ∀ r ∈ sentOn s.left.process.channel.conn effects, r.type = .request :=
    fun r hr => Process.type_of_mem_sentOn_onResponse h hr
  have hne : m.type ≠ .request := by simp [hm]
  constructor
  · have hresponses : s.calls.responses = m :: responsesIn rest := by
      simp [calls, htoLeft, responsesIn, hm]
    have hclient : s.calls.client.onRpcMessage s.calls.client.channel.conn m nested 0 =
        .ok (p.asCaller, effects) := by
      rw [Process.onRpcMessage_response hm]
      exact Process.onResponse_asCaller h
    simp only [Link.step, hresponses, hclient]
    simp only [calls, Link.clientDid, End.called, requestsIn_append, requestsIn_eq_self htype]
    rfl
  · simp only [calls, swap, End.called, responsesIn_append, responsesIn_eq_nil htype,
      List.append_nil, htoLeft, requestsIn, List.filter_cons, hne, decide_false,
      Bool.false_eq_true, ↓reduceIte, Process.onResponse_asServer h]

/-- A service of the left end completes a call. -/
theorem calls_runClosure {index : Nat} {data : Bytes} {held : HeldClosure}
    {effects : List (Effect Msg)} (hheld : s.left.closures[index]? = some held)
    (h : s.left.process.channel.doneCallback held.closure data = .ok effects)
    {t : Duplex Msg} (ht : t = { s with
      left := { s.left with closures := s.left.closures.eraseIdx index }.served held.request effects
      toRight := s.toRight ++ sentOn s.left.process.channel.conn effects }) :
    t.calls = s.calls ∧ s.swap.calls.step (.runClosure index data) = some t.swap.calls := by
  subst ht
  have htype : ∀ r ∈ sentOn s.left.process.channel.conn effects, r.type = .response :=
    fun r hr => RpcChannel.type_of_mem_sentOn_doneCallback h hr
  constructor
  · simp only [calls, End.served, requestsIn_append, requestsIn_eq_nil htype, List.append_nil]
  · have hclosures : s.swap.calls.closures[index]? = some held := hheld
    have hserver : s.swap.calls.server.channel.doneCallback held.closure data = .ok effects := h
    simp only [Link.step, hclosures, hserver]
    simp only [calls, swap, Link.serverDid, End.served, responsesIn_append,
      responsesIn_eq_self htype]
    rfl

theorem calls_of_stepLeft {a : EndAction Msg} {t : Duplex Msg} (h : s.stepLeft a = some t) :
    Reachable Link.step s.calls t.calls ∧ Reachable Link.step s.swap.calls t.swap.calls := by
  cases a with
  | callMethod call =>
    obtain ⟨hcalls, hswap⟩ := calls_callMethod call h
    exact ⟨.of_step hcalls, hswap ▸ .refl _⟩
  | otherCall =>
    cases h
    exact ⟨.of_step (a := .otherCall) rfl, .refl _⟩
  | receive fresh nested =>
    rw [stepLeft] at h
    split at h
    · cases h
    rename_i m rest htoLeft
    split at h
    · cases h
    rename_i e sent hreceive
    have ht := (Option.some.inj h).symm
    rcases End.receive_cases hreceive with
      ⟨hm, effects, heffects, rfl, rfl⟩ | ⟨hm, p, effects, heffects, rfl, rfl⟩ |
        ⟨hreq, hres, rfl, rfl⟩
    · obtain ⟨hcalls, hswap⟩ := calls_receive_request htoLeft hm heffects ht
      exact ⟨hcalls ▸ .refl _, .of_step hswap⟩
    · obtain ⟨hcalls, hswap⟩ := calls_receive_response htoLeft hm heffects ht
      exact ⟨.of_step hcalls, hswap ▸ .refl _⟩
    · -- A message of another type is dropped.
      have hcalls : t.calls = s.calls := by
        simp [ht, calls, htoLeft, responsesIn, hres]
      have hswap : t.swap.calls = s.swap.calls := by
        simp [ht, calls, swap, htoLeft, requestsIn, hreq]
      exact ⟨hcalls ▸ .refl _, hswap ▸ .refl _⟩
  | runClosure index data =>
    rw [stepLeft] at h
    split at h
    · cases h
    rename_i e sent hrun
    obtain ⟨held, effects, hheld, heffects, rfl, rfl⟩ := End.runClosure_cases hrun
    obtain ⟨hcalls, hswap⟩ := calls_runClosure hheld heffects (Option.some.inj h).symm
    exact ⟨hcalls ▸ .refl _, .of_step hswap⟩

/-- **A step of the connection, in the links of the calls of both ends.** -/
theorem calls_of_step {t : Duplex Msg} {a : Side × EndAction Msg} (h : s.step a = some t) :
    Reachable Link.step s.calls t.calls ∧ Reachable Link.step s.swap.calls t.swap.calls :=
  step_rule (P := fun s t => Reachable Link.step s.calls t.calls ∧
    Reachable Link.step s.swap.calls t.swap.calls) (fun _ _ h => h.symm)
    (fun _ _ _ h => calls_of_stepLeft h) h

section Reachable

variable {leftConn rightConn : Ptr} {leftServices rightServices : Option (ServiceTable Msg)}
  (h : Reachable Duplex.step (.init leftConn rightConn leftServices rightServices) s)

include h in
theorem reachable_calls :
    Reachable Link.step (.init leftConn rightConn rightServices) s.calls :=
  h.map (f := calls) fun _ _ _ hstep => (calls_of_step hstep).1

include h in
theorem reachable_swap_calls :
    Reachable Link.step (.init rightConn leftConn leftServices) s.swap.calls :=
  h.map (f := fun s => s.swap.calls) fun _ _ _ hstep => (calls_of_step hstep).2

end Reachable

end Duplex

/-- The invariant of a link in every state it reaches with few enough calls. -/
theorem Link.Inv.of_reachable {clientConn serverConn : Ptr}
    {services : Option (ServiceTable Msg)} {s : Link Msg}
    (h : Reachable Link.step (.init clientConn serverConn services) s)
    (hcount : s.callCount < 2147483647) : Link.Inv s :=
  h.invariant_of_backward (C := fun s => s.callCount < 2147483647)
    (fun _ _ _ hst hlt => Nat.lt_of_le_of_lt (Link.callCount_le hst) hlt)
    (fun _ _ _ H hlt hst => H.step hlt hst) (Link.Inv.init clientConn serverConn services) hcount

namespace Duplex

/-- **Both ends agree.** Two ends call and serve each other over one connection, with any tables of
services, in whatever order calls are issued, messages arrive and services complete. While the
process of an end issues fewer than `2 ^ 31 - 1` calls, every call of this end is in one place, the
other end finishes its request with one `RESPONSE` of the same id, and the call is given the answer
that was produced for it, although the calls of the other end use the same ids on the same
streams. -/
theorem agreement_both (leftConn rightConn : Ptr)
    (leftServices rightServices : Option (ServiceTable Msg)) {s : Duplex Msg}
    (h : Reachable Duplex.step (.init leftConn rightConn leftServices rightServices) s) :
    (s.left.callCount < 2147483647 → Link.Agreement s.calls) ∧
      (s.right.callCount < 2147483647 → Link.Agreement s.swap.calls) :=
  ⟨fun hcount => (Link.Inv.of_reachable (reachable_calls h) hcount).agreement hcount,
    fun hcount => (Link.Inv.of_reachable (reachable_swap_calls h) hcount).agreement hcount⟩

/-- Two calls of `Put` with the same id cross each other, and both are answered. -/
theorem agreement_both_putCall :
    ∃ s, run Duplex.step (.init 1 2 (some testServices) (some testServices))
        [(.left, .callMethod (putCall 10 11)), (.right, .callMethod (putCall 20 21)),
          (.left, .receive 50 []), (.right, .receive 60 []), (.right, .runClosure 0 [7]),
          (.left, .receive 0 []), (.left, .runClosure 0 [8]), (.right, .receive 0 [])] = some s ∧
      s.left.completed.length = 1 ∧ s.right.completed.length = 1 ∧
      Link.Agreement s.calls ∧ Link.Agreement s.swap.calls := by
  have hrun : ((run Duplex.step (.init 1 2 (some testServices) (some testServices))
      [(.left, .callMethod (putCall 10 11)), (.right, .callMethod (putCall 20 21)),
        (.left, .receive 50 []), (.right, .receive 60 []), (.right, .runClosure 0 [7]),
        (.left, .receive 0 []), (.left, .runClosure 0 [8]), (.right, .receive 0 [])]).map
        fun s => (s.left.callCount, s.right.callCount, s.left.completed.length,
          s.right.completed.length)) = some (1, 1, 1, 1) := by decide +kernel
  obtain ⟨s, hs, hsizes⟩ := Option.map_eq_some_iff.mp hrun
  simp only [Prod.mk.injEq] at hsizes
  obtain ⟨hleft, hright, hcompleted, hcompleted'⟩ := hsizes
  obtain ⟨hagree, hagree'⟩ := agreement_both 1 2 (some testServices) (some testServices) ⟨_, hs⟩
  exact ⟨s, hs, hcompleted, hcompleted', hagree (by omega), hagree' (by omega)⟩

end Duplex

end MRpc
