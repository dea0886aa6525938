import MRpc.Lib.Entries
import MRpc.Rpc.Server

/-!
# Which requests are served

A server registers services, and clients send requests. The reference says what should come of a
request, from the registrations alone. The nested lookups of the channel do just that with the table
that the registrations make, but `setServices` never stores the table, so that the server answers
every request as if nothing had been registered.

## Main definitions

* `lastRegistered`: the service that was registered last under a name.
* `reference`: what should come of a request.
* `RpcChannel.Serves`, `RpcServer.Serves`: a request has the outcome of the reference, and the call
  that it leads to completes with one answer.

## Main results

* `RpcChannel.serves_of_services`: a channel that has the table serves every request.
* `RpcServer.serves_iff_unregistered`: the server serves a request exactly when the service it names
  was not registered.
-/

namespace MRpc

open FixedWidth Machine

variable {Msg : Type}

/-! ### The reference -/

/-- The service that was registered last under this name; `NULL` is not registered. -/
def lastRegistered (regs : List (Option (Service Msg))) (name : Bytes) : Option (Service Msg) :=
  regs.reverse.findSome? fun service? => service?.filter fun service => service.fullName = name

/-- What should come of the request `m` on `conn`: an error, or one call of the service. -/
def reference (regs : List (Option (Service Msg))) (conn : Ptr) (m : RpcMessage) (fresh : Ptr) :
    List (Effect Msg) :=
  match lastRegistered regs m.service with
  | none => [.send (some conn) (errorMessage m .noService)]
  | some service =>
    match service.findMethodByName m.method with
    | none => [.send (some conn) (errorMessage m .noMethod)]
    | some method =>
      match method.requestPrototype.parseFromArray m.request with
      | (false, _) => [.send (some conn) (errorMessage m .invalidRequest)]
      | (true, request) => [.callService service method request ⟨some fresh, m.idInt64⟩]

/-- The answer that should complete the request `m` with the response `data`. -/
def referenceAnswer (m : RpcMessage) (data : Bytes) : RpcMessage :=
  { RpcMessage.empty with type? := some .response, id? := some m.id, response? := some data }

/-- The channel does with the request `m` on `conn` what the reference says, and a call that it
makes is completed with one answer on `conn`. -/
def RpcChannel.Serves (ch : RpcChannel Msg) (regs : List (Option (Service Msg))) (conn : Ptr)
    (m : RpcMessage) (fresh : Ptr) : Prop :=
  (∀ lastId nested, (⟨lastId, ch⟩ : Process Msg).onRpcMessage (some conn) m nested fresh =
    .ok (⟨lastId, ch⟩, reference regs conn m fresh)) ∧
  ∀ service method request closure data,
    .callService service method request closure ∈ reference regs conn m fresh →
      ch.doneCallback closure data =
        .ok [.send (some conn) (referenceAnswer m data), .deleteResponse fresh]

/-! ### A channel that has the table -/

/-- The table has the last registration of each name, and nothing else. -/
def ServiceTable.Registers (services : ServiceTable Msg) (regs : List (Option (Service Msg))) :
    Prop :=
  ∀ name : Bytes, services[name]? = (lastRegistered regs name).map some

theorem registers_nil : ServiceTable.Registers (∅ : ServiceTable Msg) [] := fun _ => rfl

theorem RpcServer.registers_registerService {s : RpcServer Msg} {regs : List (Option (Service Msg))}
    (H : s.services.Registers regs) (service? : Option (Service Msg)) :
    (s.registerService service?).services.Registers (regs ++ [service?]) := by
  intro name
  rw [lastRegistered, List.reverse_append, List.reverse_singleton, List.singleton_append,
    List.findSome?_cons]
  cases service? with
  | none => exact H name
  | some service =>
    simp only [registerService, Entries.getElem?_insert, Option.filter_some]
    by_cases hname : service.fullName = name
    · simp [hname]
    · simp only [if_neg hname, H name, decide_eq_true_eq, lastRegistered]

theorem wireId_idInt64 (m : RpcMessage) : wireId m.idInt64 = m.id := by
  have hlt := m.id.toNat_lt
  have huint : uint64 m.idInt64 = m.id.toNat := by
    simp only [RpcMessage.idInt64, int64, uint64]
    omega
  rw [wireId, huint, UInt64.ofNat_toNat]

/-- The dispatch of a channel that has the table is the reference. -/
theorem RpcChannel.onRequest_of_services {ch : RpcChannel Msg} {regs : List (Option (Service Msg))}
    {services : ServiceTable Msg} (hservices : ch.services = some services)
    (hregs : services.Registers regs) (conn : Ptr) (m : RpcMessage) (fresh : Ptr) :
    ch.onRequest (some conn) m fresh = .ok (reference regs conn m fresh) := by
  simp only [onRequest, dispatch, hservices, hregs m.service, reference]
  cases hreg : lastRegistered regs m.service with
  | none => rfl
  | some service =>
    simp only [Option.map_some]
    cases hmethod : service.findMethodByName m.method with
    | none => rfl
    | some method =>
      rcases hparse : method.requestPrototype.parseFromArray m.request with ⟨_ | _, request⟩
      · simp only [hparse]
        rfl
      · simp only [hparse]
        rfl

/-- **A channel that has the table serves every request** that has an id: the lookups and the
completion are right. -/
theorem RpcChannel.serves_of_services {ch : RpcChannel Msg} {regs : List (Option (Service Msg))}
    {services : ServiceTable Msg} (hservices : ch.services = some services)
    (hregs : services.Registers regs) {conn : Ptr} (hconn : ch.conn = some conn) {m : RpcMessage}
    (hm : m.type = .request) (hid : m.id ≠ 0) (fresh : Ptr) : ch.Serves regs conn m fresh := by
  refine ⟨fun lastId nested => ?_, fun service method request closure data hmem => ?_⟩
  · rw [Process.onRpcMessage_request hm, onRequest_of_services hservices hregs]
    rfl
  · obtain rfl : closure = ⟨some fresh, m.idInt64⟩ := by
      simp only [reference] at hmem
      split at hmem
      · simp at hmem
      · split at hmem
        · simp at hmem
        · split at hmem <;> simp_all
    rw [doneCallback_of_ne_zero (mt idInt64_eq_zero_iff.mp hid), hconn, responseMessage,
      wireId_idInt64]
    rfl

/-! ### The channels of the server -/

/-- A channel without a table answers every request with `NO_SERVICE`. -/
theorem RpcChannel.serves_iff_of_none {ch : RpcChannel Msg} {regs : List (Option (Service Msg))}
    {conn : Ptr} {m : RpcMessage} (hservices : ch.services = none) (hm : m.type = .request)
    (fresh : Ptr) : ch.Serves regs conn m fresh ↔ lastRegistered regs m.service = none := by
  have hreaction : ∀ lastId nested, (⟨lastId, ch⟩ : Process Msg).onRpcMessage (some conn) m nested
      fresh = .ok (⟨lastId, ch⟩, [.send (some conn) (errorMessage m .noService)]) := by
    intro lastId nested
    have hdispatch : ch.dispatch m fresh = .ok (.noService, []) := by
      rw [dispatch, hservices]
    rw [Process.onRpcMessage_request hm, onRequest_of_error (by decide) hdispatch]
    rfl
  constructor
  · rintro ⟨hserves, -⟩
    have heq := (hreaction 0 []).symm.trans (hserves 0 [])
    simp only [reference, Except.ok.injEq, Prod.mk.injEq, true_and] at heq
    split at heq
    · assumption
    · split at heq
      · simp [errorMessage] at heq
      · split at heq <;> simp [errorMessage] at heq
  · intro hnone
    have hreference : reference regs conn m fresh =
        [.send (some conn) (errorMessage m .noService)] := by
      rw [reference, hnone]
    refine ⟨fun lastId nested => ?_, fun service method request closure data hmem => ?_⟩
    · rw [hreference, hreaction]
    · rw [hreference] at hmem
      simp at hmem

namespace RpcServer

/-- A request `m` that is decoded on `conn` is served by the channel that the read callback leads
to. -/
def Serves (s : RpcServer Msg) (regs : List (Option (Service Msg))) (conn : Ptr) (m : RpcMessage)
    (fresh : Ptr) : Prop :=
  ∃ o, s.handler = some o ∧ o.channel.Serves regs conn m fresh

/-- The table of the server has the registrations, whatever the TCP server has done since. -/
theorem registers_of_run {threads : Nat} {regs : List (Option (Service Msg))}
    {actions : List TcpAction} {s : RpcServer Msg}
    (h : run RpcServer.next (RpcServer.new threads)
      (regs.map .register ++ actions.map .tcp) = some s) : s.services.Registers regs := by
  rw [run_append] at h
  obtain ⟨u, hu, hrun⟩ := Option.bind_eq_some_iff.mp h
  have hregs : u.services.Registers regs := by
    clear h hrun
    induction regs using List.reverseRecOn generalizing u with
    | nil =>
      obtain rfl := Option.some.inj hu
      exact registers_nil
    | append_singleton regs service? ih =>
      rw [List.map_append, List.map_singleton, run_concat] at hu
      obtain ⟨v, hv, hst⟩ := Option.bind_eq_some_iff.mp hu
      obtain rfl := Option.some.inj hst
      exact registers_registerService (ih v hv) service?
  clear h hu
  induction actions generalizing u with
  | nil =>
    obtain rfl := Option.some.inj hrun
    exact hregs
  | cons a actions ih =>
    obtain ⟨v, hv, hrun⟩ := Option.bind_eq_some_iff.mp hrun
    refine ih v hrun ?_
    obtain ⟨tcp, events, -, -, -, -, rfl⟩ := next_tcp hv
    rw [(tcp_services_callbacks _ _).2]
    exact hregs

/-- A channel that got the table of the server would serve every request that has an id. -/
theorem serves_of_registered {threads : Nat} {regs : List (Option (Service Msg))}
    {actions : List TcpAction} {s : RpcServer Msg}
    (h : run RpcServer.next (RpcServer.new threads)
      (regs.map .register ++ actions.map .tcp) = some s)
    (conn : Ptr) {m : RpcMessage} (hm : m.type = .request) (hid : m.id ≠ 0) (fresh : Ptr) :
    (⟨some conn, ∅, some s.services⟩ : RpcChannel Msg).Serves regs conn m fresh :=
  RpcChannel.serves_of_services rfl (registers_of_run h) rfl hm hid fresh

/-- The channel that an open connection is read by has no table. -/
theorem Invariant.services_handler {threads : Nat} {s : RpcServer Msg} (H : Invariant threads s)
    {bev : Ptr} {e : BufferEvent} (he : s.tcp.bevs bev = some e) :
    ∃ o, s.handler = some o ∧ o.channel.services = none := by
  obtain ⟨address, o, hcb, ho, -, hchannel⟩ := H.readCb_ne_none he
  refine ⟨o, ?_, ?_⟩
  · rw [handler, hcb, Option.bind_some, ho]
  · rw [hchannel]
    rfl

/-- **Only unregistered services are served.** After any registrations, and whatever connections
come, go and are read, a request with an id that is decoded on an open connection has the outcome
of the reference exactly when the service it names was not registered. -/
theorem serves_iff_unregistered {threads : Nat} {regs : List (Option (Service Msg))}
    {actions : List TcpAction} {s : RpcServer Msg}
    (h : run RpcServer.next (RpcServer.new threads)
      (regs.map .register ++ actions.map .tcp) = some s)
    {bev : Ptr} {e : BufferEvent} (he : s.tcp.bevs bev = some e) {m : RpcMessage}
    (hm : m.type = .request) (fresh : Ptr) :
    s.Serves regs e.data m fresh ↔ lastRegistered regs m.service = none := by
  obtain ⟨o, hhandler, hservices⟩ := (Invariant.of_run h).services_handler he
  rw [← RpcChannel.serves_iff_of_none hservices hm fresh]
  constructor
  · rintro ⟨o', ho', hserves⟩
    rw [hhandler] at ho'
    cases ho'
    exact hserves
  · exact fun hserves => ⟨o, hhandler, hserves⟩

/-- A server that has registered `mRpc.TestMessage`, and a client. -/
def servingRun : List (RpcAction Bytes) :=
  [some testMessage].map .register ++ [TcpAction.accept 5, .notify 0].map .tcp

theorem exists_bev_servingRun :
    ∃ s, run RpcServer.next (RpcServer.new 1) servingRun = some s ∧
      s.tcp.bevs 2 = some ⟨5, 3, 0⟩ := by
  have hbev : (run RpcServer.next (RpcServer.new 1) servingRun).map (fun s => s.tcp.bevs 2) =
      some (some ⟨5, 3, 0⟩) := by
    decide +kernel
  exact Option.map_eq_some_iff.mp hbev

/-- The client asks for a service that was not registered, and is told so. -/
theorem serves_unknownService :
    ∃ s, run RpcServer.next (RpcServer.new 1) servingRun = some s ∧
      s.tcp.bevs 2 = some ⟨5, 3, 0⟩ ∧
      s.Serves [some testMessage] 3 { putRequest with service? := some [] } 9 := by
  obtain ⟨s, hs, hbev⟩ := exists_bev_servingRun
  exact ⟨s, hs, hbev, (serves_iff_unregistered hs hbev rfl 9).mpr rfl⟩

/-- The client calls `Put`, which is registered, and is answered `NO_SERVICE`. -/
theorem not_serves_putRequest :
    ∃ s o, run RpcServer.next (RpcServer.new 1) servingRun = some s ∧
      s.tcp.bevs 2 = some ⟨5, 3, 0⟩ ∧ putRequest.id ≠ 0 ∧
      lastRegistered [some testMessage] putRequest.service = some testMessage ∧
      s.handler = some o ∧
      o.channel.onRequest (some 3) putRequest 9 =
        .ok [.send (some 3) (errorMessage putRequest .noService)] ∧
      ¬ s.Serves [some testMessage] 3 putRequest 9 := by
  obtain ⟨s, hs, hbev⟩ := exists_bev_servingRun
  obtain ⟨o, ho, hservices⟩ := (Invariant.of_run hs).services_handler hbev
  have hdispatch : o.channel.dispatch putRequest 9 = .ok (.noService, []) := by
    rw [RpcChannel.dispatch, hservices]
  refine ⟨s, o, hs, hbev, by decide, rfl, ho,
    RpcChannel.onRequest_of_error (by decide) hdispatch _, ?_⟩
  rintro ⟨o', ho', hserves⟩
  rw [ho] at ho'
  cases ho'
  rw [RpcChannel.serves_iff_of_none hservices rfl] at hserves
  cases hserves

end RpcServer

end MRpc
