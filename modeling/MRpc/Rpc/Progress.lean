import MRpc.Rpc.Duplex

/-!
# Every call is answered

Two ends whose tables hold no `NULL` service never fail an assertion on each other's messages: a
message that is on the way can be handled, and a closure that a service holds can be run. Handling
a request leaves at most a closure or an answer, running a closure leaves an answer, and an answer
leaves nothing but the calls of the closure it runs. So when no new calls are issued, the
connection comes to rest after a number of steps that its state bounds, in whatever order they are
taken, and every call has then been answered.

## Main definitions

* `End.Ready`: no `NULL` service, and no closure without its response object.
* `Duplex.Live`: every message and every closure can be handled.
* `Duplex.load`: the bound on the steps.
* `End.Answered`: every call was answered and has left the table.

## Main results

* `Duplex.live_of_reachable`: no assertion fails.
* `Duplex.answered_of_stuck`: every call is answered.
-/

namespace MRpc

open FixedWidth Machine

variable {Msg : Type}

/-! ### Ends without `NULL` pointers -/

/-- No service in the table is `NULL`. -/
def NoNullService (services : Option (ServiceTable Msg)) : Prop :=
  ∀ table, services = some table → ∀ name : Bytes, table[name]? ≠ some none

/-- The table holds no `NULL` service, and every closure has its response object. -/
structure End.Ready (e : End Msg) : Prop where
  services : NoNullService e.process.channel.services
  response : ∀ held ∈ e.closures, held.closure.response.isSome

namespace End

variable {e e' : End Msg} {sent : List RpcMessage}

theorem Ready.init {conn : Ptr} {services : Option (ServiceTable Msg)}
    (h : NoNullService services) : (End.init conn services).Ready :=
  ⟨h, by simp [End.init]⟩

theorem mem_closuresIn_onRequest {ch : RpcChannel Msg} {conn : Option Ptr} {m : RpcMessage}
    {fresh : Ptr} {effects : List (Effect Msg)} (h : ch.onRequest conn m fresh = .ok effects)
    {closure : DoneClosure} (hclosure : closure ∈ closuresIn effects) :
    closure = ⟨some fresh, m.idInt64⟩ := by
  rcases ch.dispatch_cases m fresh with
    ⟨error, herror, hdisp, -⟩ | ⟨_, service, method, request, -, -, hdisp⟩ | ⟨_, -, -, hdisp⟩
  · rw [RpcChannel.onRequest_of_error herror hdisp] at h
    cases h
    cases hclosure
  · rw [RpcChannel.onRequest_of_noError hdisp] at h
    cases h
    exact List.mem_singleton.mp hclosure
  · rw [RpcChannel.onRequest_of_assertion hdisp] at h
    cases h

theorem closuresIn_doneCallback {ch : RpcChannel Msg} {closure : DoneClosure} {data : Bytes}
    {effects : List (Effect Msg)} (h : ch.doneCallback closure data = .ok effects) :
    closuresIn effects = [] ∧ (sentOn ch.conn effects).length = 1 := by
  rw [RpcChannel.doneCallback] at h
  split at h
  · cases h
  · split_ifs at h
    cases h
    simp [closuresIn, sentOn]

theorem Ready.receive {m : RpcMessage} {fresh : Ptr} {nested : List (Call Msg)} (H : e.Ready)
    (h : e.receive m fresh nested = some (e', sent)) : e'.Ready := by
  rcases receive_cases h with
    ⟨-, effects, heffects, rfl, -⟩ | ⟨-, p, effects, heffects, rfl, -⟩ | ⟨-, -, rfl, -⟩
  · refine ⟨H.services, fun held hheld => ?_⟩
    rcases List.mem_append.mp hheld with hheld | hheld
    · exact H.response held hheld
    · obtain ⟨closure, hclosure, rfl⟩ := List.mem_map.mp hheld
      rw [mem_closuresIn_onRequest heffects hclosure]
      rfl
  · have hserver := congrArg (fun q : Process Msg => q.channel.services)
      (Process.onResponse_asServer heffects)
    have hservices : p.channel.services = e.process.channel.services := hserver
    refine ⟨?_, H.response⟩
    simp only [called, hservices]
    exact H.services
  · exact H

theorem Ready.runClosure {index : Nat} {data : Bytes} (H : e.Ready)
    (h : e.runClosure index data = some (e', sent)) : e'.Ready := by
  obtain ⟨held, effects, -, heffects, rfl, -⟩ := runClosure_cases h
  refine ⟨H.services, fun held hheld => H.response held ?_⟩
  simp only [served, (closuresIn_doneCallback heffects).1, List.map_nil, List.append_nil] at hheld
  exact List.mem_of_mem_eraseIdx hheld

end End

namespace Duplex

variable {s t : Duplex Msg}

theorem ready_of_stepLeft {a : EndAction Msg} (hleft : s.left.Ready) (hright : s.right.Ready)
    (h : s.stepLeft a = some t) : t.left.Ready ∧ t.right.Ready := by
  cases a with
  | callMethod call =>
    cases h
    exact ⟨⟨hleft.services, hleft.response⟩, hright⟩
  | otherCall =>
    cases h
    exact ⟨⟨hleft.services, hleft.response⟩, hright⟩
  | receive fresh nested =>
    rw [stepLeft] at h
    split at h
    · cases h
    split at h
    · cases h
    · rename_i hreceive
      cases h
      exact ⟨hleft.receive hreceive, hright⟩
  | runClosure index data =>
    rw [stepLeft] at h
    split at h
    · cases h
    · rename_i hrun
      cases h
      exact ⟨hleft.runClosure hrun, hright⟩

theorem ready_of_step {a : Side × EndAction Msg} (h : s.step a = some t) :
    s.left.Ready ∧ s.right.Ready → t.left.Ready ∧ t.right.Ready :=
  step_rule (P := fun s t => s.left.Ready ∧ s.right.Ready → t.left.Ready ∧ t.right.Ready)
    (fun _ _ h hready => (h hready.symm).symm)
    (fun _ _ _ h hready => ready_of_stepLeft hready.1 hready.2 h) h

/-! ### No assertion fails -/

/-- The left end can handle what is on the way to it, and run what its services hold. -/
structure LiveLeft (s : Duplex Msg) : Prop where
  receive : s.toLeft ≠ [] → ∀ fresh nested, ∃ t, s.stepLeft (.receive fresh nested) = some t
  runClosure : ∀ index < s.left.closures.length, ∀ data,
    ∃ t, s.stepLeft (.runClosure index data) = some t

/-- Both ends can. -/
def Live (s : Duplex Msg) : Prop := LiveLeft s ∧ LiveLeft s.swap

/-- An answer on the way carries a response or an error. -/
theorem carries_of_mem_responses {link : Link Msg} (H : Link.Inv link) {m : RpcMessage}
    (hm : m ∈ link.responses) : m.hasResponse || m.hasError := by
  have hmem : m ∈ link.produced.map Prod.snd := by
    rw [← H.emitted]
    exact List.mem_append_right _ hm
  obtain ⟨answer, hanswer, rfl⟩ := List.mem_map.mp hmem
  simpa using (H.answers answer hanswer).2.2

/-- A closure that is held has the id of a call. -/
theorem closure_id_ne_zero {link : Link Msg} (H : Link.Inv link)
    (hcount : link.callCount < 2147483647) {held : HeldClosure} (hheld : held ∈ link.closures) :
    held.closure.id ≠ 0 := by
  have hhandled : held.request ∈ link.handled :=
    H.finished.mem_iff.mpr (List.mem_append_right _
      (List.mem_map_of_mem (f := fun held : HeldClosure => held.request) hheld))
  obtain ⟨id, call, hcall, hrequest⟩ :=
    H.exists_call_of_mem (List.mem_append_left link.requests hhandled)
  have hbounds := H.id_bounds _ hcall
  simp only at hbounds
  rw [H.held held hheld, hrequest, idInt64_requestMessage call (by omega) (by omega)]
  omega

theorem exists_receive (H : Link.Inv s.calls) (hready : s.left.Ready) {m : RpcMessage}
    {rest : List RpcMessage} (htoLeft : s.toLeft = m :: rest) (fresh : Ptr)
    (nested : List (Call Msg)) : ∃ r, s.left.receive m fresh nested = some r := by
  cases hm : m.type with
  | request =>
    obtain ⟨effects, heffects⟩ : ∃ effects,
        s.left.process.channel.onRequest s.left.process.channel.conn m fresh = .ok effects := by
      rcases s.left.process.channel.dispatch_cases m fresh with
        ⟨error, herror, hdisp, -⟩ | ⟨_, _, _, _, -, -, hdisp⟩ | ⟨table, htable, hnull, -⟩
      · exact ⟨_, RpcChannel.onRequest_of_error herror hdisp _⟩
      · exact ⟨_, RpcChannel.onRequest_of_noError hdisp _⟩
      · exact absurd hnull (hready.services table htable m.service)
    rw [End.receive, Process.onRpcMessage_request hm, heffects]
    simp [Except.map, hm]
  | response =>
    have hmem : m ∈ s.calls.responses := by simp [calls, htoLeft, responsesIn, hm]
    have hcarry := carries_of_mem_responses H hmem
    rw [End.receive, Process.onRpcMessage_response hm]
    cases hout : s.left.process.channel.outstandings[m.idInt64]? with
    | none =>
      rw [Process.onResponse_of_none hcarry hout]
      simp [hm]
    | some out =>
      rw [Process.onResponse_of_some hcarry hout]
      simp [hm]
  | error => simp [End.receive, Process.onRpcMessage, hm]
  | unknow => simp [End.receive, Process.onRpcMessage, hm]

theorem exists_runClosure (H : Link.Inv s.swap.calls) (hcount : s.right.callCount < 2147483647)
    (hready : s.left.Ready) {index : Nat} (hindex : index < s.left.closures.length)
    (data : Bytes) : ∃ r, s.left.runClosure index data = some r := by
  have hheld : s.left.closures[index]? = some s.left.closures[index] :=
    List.getElem?_eq_getElem hindex
  have hmem := List.mem_of_getElem? hheld
  have hid : s.left.closures[index].closure.id ≠ 0 := closure_id_ne_zero H hcount hmem
  obtain ⟨response, hresponse⟩ := Option.isSome_iff_exists.mp (hready.response _ hmem)
  rw [End.runClosure, hheld]
  simp [RpcChannel.doneCallback, hresponse, hid]

theorem liveLeft (H : Link.Inv s.calls) (H' : Link.Inv s.swap.calls)
    (hcount : s.right.callCount < 2147483647) (hready : s.left.Ready) : LiveLeft s where
  receive hne fresh nested := by
    obtain ⟨m, rest, htoLeft⟩ := List.exists_cons_of_ne_nil hne
    obtain ⟨r, hr⟩ := exists_receive H hready htoLeft fresh nested
    simp only [stepLeft, htoLeft, hr]
    exact ⟨_, rfl⟩
  runClosure index hindex data := by
    obtain ⟨r, hr⟩ := exists_runClosure H' hcount hready hindex data
    simp only [stepLeft, hr]
    exact ⟨_, rfl⟩

section Reachable

variable {leftConn rightConn : Ptr} {leftServices rightServices : Option (ServiceTable Msg)}

theorem ready_of_reachable (hl : NoNullService leftServices) (hr : NoNullService rightServices)
    (h : Reachable Duplex.step (.init leftConn rightConn leftServices rightServices) s) :
    s.left.Ready ∧ s.right.Ready :=
  h.invariant (P := fun s => s.left.Ready ∧ s.right.Ready)
    (fun _ _ _ hready hstep => ready_of_step hstep hready) ⟨.init hl, .init hr⟩

/-- **No assertion fails.** If neither table of services holds a `NULL` pointer, then in every state
that the two ends can reach with fewer than `2 ^ 31 - 1` calls each, whatever message comes next at
either end can be handled, whatever its closure calls in turn, and every closure that a service
holds can be run on whatever response. -/
theorem live_of_reachable (hl : NoNullService leftServices) (hr : NoNullService rightServices)
    (h : Reachable Duplex.step (.init leftConn rightConn leftServices rightServices) s)
    (hleft : s.left.callCount < 2147483647) (hright : s.right.callCount < 2147483647) :
    Live s := by
  have H := Link.Inv.of_reachable (reachable_calls h) hleft
  have H' := Link.Inv.of_reachable (reachable_swap_calls h) hright
  obtain ⟨hreadyl, hreadyr⟩ := ready_of_reachable hl hr h
  exact ⟨liveLeft H H' hright hreadyl, liveLeft H' H hleft hreadyr⟩

end Reachable

theorem noNullService_testServices : NoNullService (some testServices) := by
  rintro table htable name
  obtain rfl := Option.some.inj htable
  rw [testServices, Std.TreeMap.ofList_singleton, Std.TreeMap.getElem?_insert]
  split <;> simp

/-- Two calls of `Put` on the way to each other, which no assertion keeps from being handled. -/
theorem live_putCall :
    ∃ s, run Duplex.step (.init 1 2 (some testServices) (some testServices))
        [(.left, .callMethod (putCall 10 11)), (.right, .callMethod (putCall 20 21)),
          (.left, .receive 50 [])] = some s ∧
      s.toRight.length = 1 ∧ s.left.closures.length = 1 ∧ Live s := by
  have hrun : ((run Duplex.step (.init 1 2 (some testServices) (some testServices))
      [(.left, .callMethod (putCall 10 11)), (.right, .callMethod (putCall 20 21)),
        (.left, .receive 50 [])]).map fun s => (s.left.callCount, s.right.callCount,
          s.toRight.length, s.left.closures.length)) = some (1, 1, 1, 1) := by decide +kernel
  obtain ⟨s, hs, hsizes⟩ := Option.map_eq_some_iff.mp hrun
  simp only [Prod.mk.injEq] at hsizes
  obtain ⟨hleft, hright, htoRight, hclosures⟩ := hsizes
  exact ⟨s, hs, htoRight, hclosures, live_of_reachable noNullService_testServices
    noNullService_testServices ⟨_, hs⟩ (by omega) (by omega)⟩

/-! ### Steps without new calls -/

end Duplex

/-- The action issues no call, and neither does the closure that it runs. -/
def EndAction.CallsNothing : EndAction Msg → Prop
  | .receive _ nested => nested = []
  | .runClosure _ _ => True
  | _ => False

namespace Duplex

variable {s t : Duplex Msg}

/-- The steps that a message can still cause: a request is received, completed and answered. -/
def weight (m : RpcMessage) : Nat := if m.type = .request then 3 else 1

/-- The steps that the messages of a stream can still cause. -/
def streamLoad (ms : List RpcMessage) : Nat := (ms.map weight).sum

/-- The steps that are possible without new calls. -/
def load (s : Duplex Msg) : Nat :=
  streamLoad s.toRight + streamLoad s.toLeft +
    2 * (s.left.closures.length + s.right.closures.length)

theorem streamLoad_append (ms ns : List RpcMessage) :
    streamLoad (ms ++ ns) = streamLoad ms + streamLoad ns := by
  rw [streamLoad, List.map_append, List.sum_append, streamLoad, streamLoad]

theorem streamLoad_cons (m : RpcMessage) (ms : List RpcMessage) :
    streamLoad (m :: ms) = weight m + streamLoad ms := by
  rw [streamLoad, List.map_cons, List.sum_cons, streamLoad]

theorem load_swap (s : Duplex Msg) : s.swap.load = s.load := by
  simp only [load, swap]
  omega

theorem streamLoad_responses {ms : List RpcMessage} (h : ∀ m ∈ ms, m.type = .response) :
    streamLoad ms = ms.length := by
  induction ms with
  | nil => rfl
  | cons m ms ih =>
    have hm : weight m = 1 := by simp [weight, h m (by simp)]
    rw [streamLoad_cons, hm, ih fun m hm => h m (by simp [hm]), List.length_cons, Nat.add_comm]

/-- A request leaves a closure or an answer. -/
theorem onRequest_load {ch : RpcChannel Msg} {m : RpcMessage} {fresh : Ptr}
    {effects : List (Effect Msg)} (h : ch.onRequest ch.conn m fresh = .ok effects) :
    streamLoad (sentOn ch.conn effects) + 2 * (closuresIn effects).length ≤ 2 := by
  rcases ch.dispatch_cases m fresh with
    ⟨error, herror, hdisp, -⟩ | ⟨_, service, method, request, -, -, hdisp⟩ | ⟨_, -, -, hdisp⟩
  · rw [RpcChannel.onRequest_of_error herror hdisp] at h
    cases h
    simp [sentOn, closuresIn, streamLoad, weight, errorMessage, RpcMessage.type]
  · rw [RpcChannel.onRequest_of_noError hdisp] at h
    cases h
    simp [sentOn, closuresIn, streamLoad]
  · rw [RpcChannel.onRequest_of_assertion hdisp] at h
    cases h

/-- An answer whose closure calls nothing sends nothing. -/
theorem onResponse_nil {p q : Process Msg} {m : RpcMessage} {effects : List (Effect Msg)}
    (h : p.onResponse m [] = .ok (q, effects)) (conn : Option Ptr) :
    sentOn conn effects = [] ∧ storedCalls effects = [] := by
  rw [Process.onResponse] at h
  split_ifs at h
  split at h
  · cases h
    exact ⟨rfl, rfl⟩
  · rename_i out _
    have heffects : effects = ((p.forget m.idInt64).complete m [] out).2 := by
      rw [Except.ok.inj h]
    rw [heffects]
    rcases out with ⟨_ | response, _ | done⟩ <;> by_cases hm : m.hasResponse <;>
      simp [Process.complete, Process.runDone, Process.callMethods, hm, sentOn, storedCalls]

/-- A step without new calls lowers the load, and enters no call. -/
structure Settles (s t : Duplex Msg) : Prop where
  load_lt : t.load < s.load
  issued_left : t.left.issued = s.left.issued
  issued_right : t.right.issued = s.right.issued
  callCount_left : t.left.callCount = s.left.callCount
  callCount_right : t.right.callCount = s.right.callCount

theorem Settles.swap {s t : Duplex Msg} (H : Settles s t) : Settles s.swap t.swap :=
  ⟨by rw [load_swap, load_swap]; exact H.load_lt, H.issued_right, H.issued_left,
    H.callCount_right, H.callCount_left⟩

theorem settles_receive {m : RpcMessage} {rest sent : List RpcMessage} {fresh : Ptr} {e : End Msg}
    (htoLeft : s.toLeft = m :: rest) (h : s.left.receive m fresh [] = some (e, sent)) :
    Settles s { s with left := e, toLeft := rest, toRight := s.toRight ++ sent } := by
  have hpos : 1 ≤ weight m := by
    rw [weight]
    split_ifs <;> omega
  rcases End.receive_cases h with
    ⟨hm, effects, heffects, rfl, rfl⟩ | ⟨hm, p, effects, heffects, rfl, rfl⟩ | ⟨-, -, rfl, rfl⟩
  · have hload := onRequest_load heffects
    have hweight : weight m = 3 := by simp [weight, hm]
    refine ⟨?_, rfl, rfl, rfl, rfl⟩
    simp only [load, End.served, htoLeft, streamLoad_append, streamLoad_cons, List.length_append,
      List.length_map]
    omega
  · obtain ⟨hsent, hstored⟩ := onResponse_nil heffects s.left.process.channel.conn
    refine ⟨?_, by simp [End.called, hstored], rfl, by simp [End.called, hstored], rfl⟩
    simp only [load, End.called, htoLeft, hsent, List.append_nil, streamLoad_cons]
    omega
  · refine ⟨?_, rfl, rfl, rfl, rfl⟩
    simp only [load, htoLeft, List.append_nil, streamLoad_cons]
    omega

theorem settles_runClosure {index : Nat} {data : Bytes} {sent : List RpcMessage} {e : End Msg}
    (h : s.left.runClosure index data = some (e, sent)) :
    Settles s { s with left := e, toRight := s.toRight ++ sent } := by
  obtain ⟨held, effects, hheld, heffects, rfl, rfl⟩ := End.runClosure_cases h
  obtain ⟨hclosures, hlength⟩ := End.closuresIn_doneCallback heffects
  have hload : streamLoad (sentOn s.left.process.channel.conn effects) = _ :=
    streamLoad_responses fun r hr => RpcChannel.type_of_mem_sentOn_doneCallback heffects hr
  obtain ⟨hlt, -⟩ := List.getElem?_eq_some_iff.mp hheld
  refine ⟨?_, rfl, rfl, rfl, rfl⟩
  simp only [load, End.served, hclosures, List.map_nil, List.append_nil, streamLoad_append, hload,
    hlength, List.length_eraseIdx_of_lt hlt]
  omega

theorem settles_of_step {a : Side × EndAction Msg} (ha : a.2.CallsNothing)
    (h : s.step a = some t) : Settles s t := by
  have hleft (s t : Duplex Msg) (a : EndAction Msg) (ha : a.CallsNothing)
      (h : s.stepLeft a = some t) : Settles s t := by
    cases a with
    | callMethod call => exact ha.elim
    | otherCall => exact ha.elim
    | receive fresh nested =>
      obtain rfl : nested = [] := ha
      rw [stepLeft] at h
      split at h
      · cases h
      rename_i m rest htoLeft
      split at h
      · cases h
      · rename_i hreceive
        cases h
        exact settles_receive htoLeft hreceive
    | runClosure index data =>
      rw [stepLeft] at h
      split at h
      · cases h
      · rename_i hrun
        cases h
        exact settles_runClosure hrun
  obtain ⟨side, a⟩ := a
  cases side with
  | left => exact hleft s t a ha h
  | right => exact (hleft s.swap t.swap a ha (step_right_iff.mp h)).swap

/-! ### The connection at rest -/

/-- Nothing can happen without a new call. -/
def Stuck (s : Duplex Msg) : Prop :=
  ∀ a : Side × EndAction Msg, a.2.CallsNothing → s.step a = none

theorem eq_nil_of_stuck (hlive : Live s) (h : Stuck s) :
    s.toLeft = [] ∧ s.toRight = [] ∧ s.left.closures = [] ∧ s.right.closures = [] := by
  have hside (u : Duplex Msg) (hlive : LiveLeft u)
      (h : ∀ a : EndAction Msg, a.CallsNothing → u.stepLeft a = none) :
      u.toLeft = [] ∧ u.left.closures = [] := by
    constructor
    · by_contra hne
      obtain ⟨t, ht⟩ := hlive.receive hne 0 []
      rw [h (.receive 0 []) rfl] at ht
      cases ht
    · by_contra hne
      obtain ⟨t, ht⟩ := hlive.runClosure 0 (List.length_pos_of_ne_nil hne) []
      rw [h (.runClosure 0 []) trivial] at ht
      cases ht
  obtain ⟨htoLeft, hleft⟩ := hside s hlive.1 fun a ha => h (.left, a) ha
  obtain ⟨htoRight, hright⟩ := hside s.swap hlive.2 fun a ha =>
    Option.map_eq_none_iff.mp (h (.right, a) ha)
  exact ⟨htoLeft, htoRight, hleft, hright⟩

end Duplex

/-- Every call of the end was answered once, and the table is empty. -/
structure End.Answered (e : End Msg) : Prop where
  perm : (e.issued.map Prod.fst).Perm (e.completed.map fun entry => entry.1.idInt64)
  outstandings : ∀ id : Int, e.process.channel.outstandings[id]? = none

namespace Duplex

variable {s : Duplex Msg}

theorem answered_left (H : Link.Inv s.calls) (hcount : s.left.callCount < 2147483647)
    (htoLeft : s.toLeft = []) (htoRight : s.toRight = []) (hclosures : s.right.closures = []) :
    s.left.Answered := by
  have hplaces := (H.agreement hcount).places
  have hperm : (s.left.issued.map Prod.fst).Perm
      (s.left.completed.map fun entry => entry.1.idInt64) := by
    simpa [calls, htoLeft, htoRight, hclosures, requestsIn, responsesIn] using hplaces
  refine ⟨hperm, fun id => ?_⟩
  by_contra hsome
  obtain ⟨out, hout⟩ := Option.ne_none_iff_exists'.mp hsome
  obtain ⟨⟨call, hcall, -⟩, hnot⟩ := (H.outstanding_iff id out).mp hout
  exact hnot (hperm.mem_iff.mp (List.mem_map.mpr ⟨(id, call), hcall, rfl⟩))

/-- **Every call is answered.** From every state that two ends without `NULL` services can reach
with fewer than `2 ^ 31 - 1` calls each: if no further calls are issued, every run has at most
`load` steps, some run goes on until nothing is possible any more, and after every run that does,
each call of either end has been answered once and has left the table. No assumption is made on the
order in which messages arrive at the two ends and services complete. -/
theorem answered_of_stuck {leftConn rightConn : Ptr}
    {leftServices rightServices : Option (ServiceTable Msg)} (hl : NoNullService leftServices)
    (hr : NoNullService rightServices)
    (h : Reachable Duplex.step (.init leftConn rightConn leftServices rightServices) s)
    (hleft : s.left.callCount < 2147483647) (hright : s.right.callCount < 2147483647) :
    (∃ as t, (∀ a ∈ as, a.2.CallsNothing) ∧ run Duplex.step s as = some t ∧ Stuck t) ∧
      ∀ as t, (∀ a ∈ as, a.2.CallsNothing) → run Duplex.step s as = some t →
        as.length ≤ s.load ∧ (Stuck t → t.left.issued = s.left.issued ∧
          t.right.issued = s.right.issued ∧ t.left.Answered ∧ t.right.Answered) := by
  have hdec (u : Duplex Msg) (a : Side × EndAction Msg) (v : Duplex Msg) (ha : a.2.CallsNothing)
      (hu : u.left.issued = s.left.issued ∧ u.right.issued = s.right.issued ∧
        u.left.callCount = s.left.callCount ∧ u.right.callCount = s.right.callCount)
      (hstep : u.step a = some v) :
      (v.left.issued = s.left.issued ∧ v.right.issued = s.right.issued ∧
        v.left.callCount = s.left.callCount ∧ v.right.callCount = s.right.callCount) ∧
        v.load < u.load := by
    have H := settles_of_step ha hstep
    exact ⟨⟨H.issued_left.trans hu.1, H.issued_right.trans hu.2.1,
      H.callCount_left.trans hu.2.2.1, H.callCount_right.trans hu.2.2.2⟩, H.load_lt⟩
  refine ⟨exists_stuck hdec ⟨rfl, rfl, rfl, rfl⟩, fun as t has hrun => ?_⟩
  obtain ⟨⟨hissued, hissued', hcount, hcount'⟩, hle⟩ :=
    length_le_of_run hdec ⟨rfl, rfl, rfl, rfl⟩ has hrun
  refine ⟨by omega, fun hstuck => ⟨hissued, hissued', ?_⟩⟩
  have ht := h.trans ⟨as, hrun⟩
  have H := Link.Inv.of_reachable (reachable_calls ht) (by rw [← hcount] at hleft; exact hleft)
  have H' := Link.Inv.of_reachable (reachable_swap_calls ht)
    (by rw [← hcount'] at hright; exact hright)
  obtain ⟨hreadyl, hreadyr⟩ := ready_of_reachable hl hr ht
  have hlive : Live t := ⟨liveLeft H H' (by omega) hreadyl, liveLeft H' H (hcount ▸ hleft) hreadyr⟩
  obtain ⟨htoLeft, htoRight, hclosures, hclosures'⟩ := eq_nil_of_stuck hlive hstuck
  exact ⟨answered_left H (by omega) htoLeft htoRight hclosures',
    answered_left H' (hcount' ▸ hright) htoRight htoLeft hclosures⟩

/-- Two calls of `Put` on the way to each other come to rest in at most six steps. -/
theorem answered_putCall :
    ∃ s, run Duplex.step (.init 1 2 (some testServices) (some testServices))
        [(.left, .callMethod (putCall 10 11)), (.right, .callMethod (putCall 20 21))] = some s ∧
      ∃ as t, as.length ≤ 6 ∧ run Duplex.step s as = some t ∧ t.left.Answered ∧
        t.right.Answered := by
  have hrun : ((run Duplex.step (.init 1 2 (some testServices) (some testServices))
      [(.left, .callMethod (putCall 10 11)), (.right, .callMethod (putCall 20 21))]).map
        fun s => (s.left.callCount, s.right.callCount, s.load)) = some (1, 1, 6) := by
    decide +kernel
  obtain ⟨s, hs, hsizes⟩ := Option.map_eq_some_iff.mp hrun
  simp only [Prod.mk.injEq] at hsizes
  obtain ⟨hleft, hright, hload⟩ := hsizes
  obtain ⟨⟨as, t, has, hrun, hstuck⟩, hall⟩ := answered_of_stuck noNullService_testServices
    noNullService_testServices ⟨_, hs⟩ (by omega) (by omega)
  obtain ⟨hle, hanswered⟩ := hall as t has hrun
  exact ⟨s, hs, as, t, hload ▸ hle, hrun, (hanswered hstuck).2.2⟩

end Duplex

end MRpc
