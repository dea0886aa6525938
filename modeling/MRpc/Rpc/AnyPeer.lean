import MRpc.Rpc.Duplex
import MRpc.Rpc.Serving

/-!
# Serving any peer

One end of a connection, and a peer that sends whatever it likes: requests with ids that repeat or
mean nothing, answers that nobody asked for, messages of no known type. Services complete their
calls at any time and in any order, and the end issues calls of its own. An answer goes out for each
request and for nothing else: the answers that were sent and the closures that services still hold
account for the requests that have come, one for one, and each answer is the one that the table of
services asks for, with the data that the service has completed the call with.

## Main definitions

* `Exposed`, `PeerAction`, `Exposed.step`: an end, and what came and went on its connection.
* `Answers`, `IsFound`: what a request may be answered with.
* `Exposed.Accounted`: the invariant.

## Main results

* `Exposed.Accounted.receive`, `Exposed.Accounted.runClosure`: what one step preserves.
* `Exposed.answers_of_reachable`: every request is answered once, or a service still works on it.
-/

namespace MRpc

open FixedWidth Machine

variable {Msg : Type}

/-! ### An end and what came and went -/

/-- One end of a connection, the messages that have come, and those that it has sent. -/
structure Exposed (Msg : Type) where
  self : End Msg
  received : List RpcMessage
  sent : List RpcMessage
  /-- The requests whose calls services have completed, with the responses, serialized. -/
  completions : List (RpcMessage × Bytes)

/-- What may happen: what happens at an end, where any message can come. -/
inductive PeerAction (Msg : Type)
  | callMethod (call : Call Msg)
  | otherCall
  | receive (m : RpcMessage) (fresh : Ptr) (nested : List (Call Msg))
  | runClosure (index : Nat) (data : Bytes)

namespace Exposed

/-- A new connection. -/
def init (conn : Ptr) (services : Option (ServiceTable Msg)) : Exposed Msg :=
  ⟨.init conn services, [], [], []⟩

/-- The request of a closure that a service completes with `data`. -/
def completing (e : End Msg) (index : Nat) (data : Bytes) : List (RpcMessage × Bytes) :=
  e.closures[index]?.toList.map fun held => (held.request, data)

/-- One step; an assertion that fails ends the run. -/
def step (s : Exposed Msg) : PeerAction Msg → Option (Exposed Msg)
  | .callMethod call =>
    let (e, sent) := s.self.callMethod call
    some { s with self := e, sent := s.sent ++ sent }
  | .otherCall => some { s with self := s.self.otherCall }
  | .receive m fresh nested =>
    match s.self.receive m fresh nested with
    | none => none
    | some (e, sent) =>
      some { s with self := e, received := s.received ++ [m], sent := s.sent ++ sent }
  | .runClosure index data =>
    match s.self.runClosure index data with
    | none => none
    | some (e, sent) =>
      some { s with
        self := e
        sent := s.sent ++ sent
        completions := s.completions ++ completing s.self index data }

/-- The responses that the completed calls are to be answered with, each after its request. -/
def completionAnswers (s : Exposed Msg) : List (RpcMessage × RpcMessage) :=
  s.completions.map fun completion =>
    (completion.1, responseMessage completion.1.idInt64 completion.2)

end Exposed

/-! ### Answers -/

/-- The table has what the request `q` asks for. -/
def IsFound (services : Option (ServiceTable Msg)) (q : RpcMessage) : Prop :=
  ∃ table service method request, services = some table ∧ table.Finds q service method request

/-- The message `r` answers `q`: with an error if the table does not have what `q` asks for, and
otherwise with a response of the service. -/
def Answers (services : Option (ServiceTable Msg)) (q r : RpcMessage) : Prop :=
  ¬ IsFound services q ∧ (∃ error, error ≠ .noError ∧ r = errorMessage q error) ∨
    IsFound services q ∧ ∃ data, r = responseMessage q.idInt64 data

variable {services : Option (ServiceTable Msg)} {q r : RpcMessage}

/-- An answer carries the id of the request. -/
theorem Answers.id_eq (h : Answers services q r) : r.type = .response ∧ r.id = q.id := by
  rcases h with ⟨-, error, -, rfl⟩ | ⟨-, data, rfl⟩
  · exact ⟨rfl, rfl⟩
  · exact ⟨rfl, wireId_idInt64 q⟩

/-- What `onRpcMessage` does with a request: it answers it, or hands it to a service. -/
theorem RpcChannel.onRequest_answers {ch : RpcChannel Msg} {m : RpcMessage} {fresh : Ptr}
    {effects : List (Effect Msg)} (h : ch.onRequest ch.conn m fresh = .ok effects) :
    (closuresIn effects = [] ∧ ∃ answer, sentOn ch.conn effects = [answer] ∧
      Answers ch.services m answer ∧ answer.hasResponse = false) ∨
    (closuresIn effects = [⟨some fresh, m.idInt64⟩] ∧ sentOn ch.conn effects = [] ∧
      IsFound ch.services m) := by
  rcases ch.dispatch_cases m fresh with ⟨error, herror, hdisp, hnot⟩ |
    ⟨table, service, method, request, htable, hfinds, hdisp⟩ | ⟨_, -, -, hdisp⟩
  · rw [onRequest_of_error herror hdisp] at h
    cases h
    refine Or.inl ⟨rfl, errorMessage m error, by simp [sentOn], Or.inl ⟨?_, error, herror, rfl⟩,
      rfl⟩
    rintro ⟨table, service, method, request, htable, hfinds⟩
    exact (hnot table htable).2 service method request hfinds
  · rw [onRequest_of_noError hdisp] at h
    cases h
    exact Or.inr ⟨rfl, rfl, table, service, method, request, htable, hfinds⟩
  · rw [onRequest_of_assertion hdisp] at h
    cases h

/-- What `doneCallback` does: it sends one message. -/
theorem RpcChannel.doneCallback_answers {ch : RpcChannel Msg} {closure : DoneClosure}
    {data : Bytes} {effects : List (Effect Msg)} (h : ch.doneCallback closure data = .ok effects) :
    closuresIn effects = [] ∧ sentOn ch.conn effects = [responseMessage closure.id data] := by
  rw [doneCallback] at h
  split at h
  · cases h
  · split_ifs at h
    cases h
    exact ⟨rfl, by simp [sentOn]⟩

/-! ### The invariant -/

namespace Exposed

/-- What has come and gone, and what the end has recorded of it. -/
structure Accounted (services : Option (ServiceTable Msg)) (s : Exposed Msg) : Prop where
  services_eq : s.self.process.channel.services = services
  handled : requestsIn s.received = s.self.handled
  produced : responsesIn s.sent = s.self.produced.map Prod.snd
  finished : s.self.handled.Perm
    (s.self.produced.map Prod.fst ++ s.self.closures.map (fun held => held.request))
  answers : ∀ answer ∈ s.self.produced, Answers services answer.1 answer.2
  completed : s.self.produced.filter (fun answer => answer.2.hasResponse) = s.completionAnswers
  held : ∀ held ∈ s.self.closures, held.closure.id = held.request.idInt64 ∧
    IsFound services held.request

theorem Accounted.init (conn : Ptr) (services : Option (ServiceTable Msg)) :
    Accounted services (Exposed.init conn services) := by
  constructor <;> simp [Exposed.init, End.init, requestsIn, responsesIn, completionAnswers]

variable {s t : Exposed Msg}

/-- The end sends nothing but calls of its own, and does not serve. -/
theorem Accounted.calls (H : Accounted services s)
    (hservices : t.self.process.channel.services = s.self.process.channel.services)
    (hreceived : requestsIn t.received = requestsIn s.received)
    (hsent : responsesIn t.sent = responsesIn s.sent) (hhandled : t.self.handled = s.self.handled)
    (hproduced : t.self.produced = s.self.produced)
    (hclosures : t.self.closures = s.self.closures) (hcompletions : t.completions = s.completions) :
    Accounted services t := by
  refine ⟨hservices.trans H.services_eq, ?_, ?_, ?_, ?_, ?_, ?_⟩
  · rw [hreceived, hhandled, H.handled]
  · rw [hsent, hproduced, H.produced]
  · rw [hhandled, hproduced, hclosures]
    exact H.finished
  · rw [hproduced]
    exact H.answers
  · rw [hproduced, completionAnswers, hcompletions]
    exact H.completed
  · rw [hclosures]
    exact H.held

/-- A request is answered, when it comes or when a service has completed it. -/
theorem Accounted.answer (H : Accounted services s) {q r : RpcMessage} (hr : Answers services q r)
    (hcompleted : t.completionAnswers =
      s.completionAnswers ++ [(q, r)].filter fun answer => answer.2.hasResponse)
    (hservices : t.self.process.channel.services = s.self.process.channel.services)
    (hreceived : requestsIn t.received = t.self.handled) (hsent : t.sent = s.sent ++ [r])
    (hproduced : t.self.produced = s.self.produced ++ [(q, r)])
    (hfinished : t.self.handled.Perm (s.self.produced.map Prod.fst ++
      q :: t.self.closures.map fun held => held.request))
    (hclosures : ∀ held ∈ t.self.closures, held ∈ s.self.closures) : Accounted services t := by
  refine ⟨hservices.trans H.services_eq, hreceived, ?_, ?_, ?_, ?_, fun held hheld =>
    H.held held (hclosures held hheld)⟩
  · have hone : responsesIn [r] = [r] := by simp [responsesIn, hr.id_eq.1]
    rw [hsent, responsesIn_append, hone, H.produced, hproduced, List.map_append, List.map_singleton]
  · rw [hproduced, List.map_append, List.map_singleton, List.append_assoc]
    exact hfinished
  · intro answer hanswer
    rw [hproduced, List.mem_append, List.mem_singleton] at hanswer
    rcases hanswer with hanswer | rfl
    · exact H.answers answer hanswer
    · exact hr
  · rw [hproduced, List.filter_append, H.completed, hcompleted]

/-- A message comes, whatever it is. -/
theorem Accounted.receive (H : Accounted services s) {m : RpcMessage} {fresh : Ptr}
    {nested : List (Call Msg)} {e : End Msg} {sent : List RpcMessage}
    (h : s.self.receive m fresh nested = some (e, sent)) :
    Accounted services ⟨e, s.received ++ [m], s.sent ++ sent, s.completions⟩ := by
  rcases End.receive_cases h with ⟨hm, effects, heffects, rfl, rfl⟩ |
    ⟨hm, p, effects, heffects, rfl, rfl⟩ | ⟨hreq, hresp, rfl, rfl⟩
  · have hone : requestsIn [m] = [m] := by simp [requestsIn, hm]
    have hreceived : requestsIn (s.received ++ [m]) = s.self.handled ++ [m] := by
      rw [requestsIn_append, hone, H.handled]
    have hperm := H.finished.append_right [m]
    rcases RpcChannel.onRequest_answers heffects with ⟨hclosures, answer, hanswer, hr, herror⟩ |
      ⟨hclosures, hanswer, hfound⟩
    · refine H.answer (q := m) (r := answer) (H.services_eq ▸ hr) ?_ rfl hreceived
        (by rw [hanswer]) ?_ ?_ fun held hheld => ?_
      · simp [completionAnswers, herror]
      · simp [End.served, hanswer]
      · simp only [End.served, hclosures, List.map_nil, List.append_nil]
        refine hperm.trans ?_
        rw [List.append_assoc]
        exact (List.perm_append_singleton m _).append_left _
      · simpa [End.served, hclosures] using hheld
    · refine ⟨H.services_eq, hreceived, ?_, ?_, ?_, ?_, fun held hheld => ?_⟩
      · simpa [End.served, hanswer] using H.produced
      · simpa [End.served, hanswer, hclosures] using hperm
      · simpa [End.served, hanswer] using H.answers
      · simpa [End.served, hanswer, completionAnswers] using H.completed
      · simp only [End.served, hclosures, List.map_singleton, List.mem_append,
          List.mem_singleton] at hheld
        rcases hheld with hheld | rfl
        · exact H.held held hheld
        · exact ⟨rfl, H.services_eq ▸ hfound⟩
  · have hsame := congrArg (fun p => p.channel.services) (Process.onResponse_asServer heffects)
    refine H.calls hsame ?_ ?_ rfl rfl rfl rfl
    · simp [requestsIn, hm]
    · have hnil : responsesIn (sentOn s.self.process.channel.conn effects) = [] :=
        responsesIn_eq_nil fun r hr => Process.type_of_mem_sentOn_onResponse heffects hr
      rw [responsesIn_append, hnil, List.append_nil]
  · refine H.calls rfl ?_ ?_ rfl rfl rfl rfl
    · simp [requestsIn, hreq]
    · simp [responsesIn]

/-- A service completes a call. -/
theorem Accounted.runClosure (H : Accounted services s) {index : Nat} {data : Bytes} {e : End Msg}
    {sent : List RpcMessage} (h : s.self.runClosure index data = some (e, sent)) :
    Accounted services
      ⟨e, s.received, s.sent ++ sent, s.completions ++ completing s.self index data⟩ := by
  obtain ⟨held, effects, hheld, hdone, rfl, rfl⟩ := End.runClosure_cases h
  obtain ⟨hclosures, hsent⟩ := RpcChannel.doneCallback_answers hdone
  obtain ⟨hid, hfound⟩ := H.held held (List.mem_of_getElem? hheld)
  obtain ⟨hlt, hget⟩ := List.getElem?_eq_some_iff.mp hheld
  have hperm := (List.getElem_cons_eraseIdx_perm hlt).map fun held => held.request
  rw [hget, List.map_cons] at hperm
  refine H.answer (q := held.request) (r := responseMessage held.closure.id data)
    (Or.inr ⟨hfound, data, by rw [hid]⟩) ?_ rfl H.handled (by rw [hsent]) ?_ ?_ fun x hx => ?_
  · simp only [completionAnswers, completing, hheld, Option.toList_some, List.map_append,
      List.map_singleton, hid]
    rfl
  · simp [End.served, hsent]
  · simp only [End.served, hclosures, List.map_nil, List.append_nil]
    exact H.finished.trans (hperm.symm.append_left _)
  · simp only [End.served, hclosures, List.map_nil, List.append_nil] at hx
    exact List.mem_of_mem_eraseIdx hx

theorem Accounted.step {a : PeerAction Msg} (H : Accounted services s) (h : s.step a = some t) :
    Accounted services t := by
  cases a with
  | callMethod call =>
    obtain rfl := Option.some.inj h
    refine H.calls rfl rfl ?_ rfl rfl rfl rfl
    simp [sentOn, responsesIn, requestMessage, RpcMessage.type]
  | otherCall =>
    obtain rfl := Option.some.inj h
    exact H.calls rfl rfl rfl rfl rfl rfl rfl
  | receive m fresh nested =>
    simp only [Exposed.step] at h
    split at h
    case h_1 => cases h
    case h_2 e sent hreceive =>
      obtain rfl := Option.some.inj h
      exact H.receive hreceive
  | runClosure index data =>
    simp only [Exposed.step] at h
    split at h
    case h_1 => cases h
    case h_2 e sent hrun =>
      obtain rfl := Option.some.inj h
      exact H.runClosure hrun

/-! ### Whole runs -/

theorem accounted_of_reachable {conn : Ptr}
    (h : Reachable Exposed.step (Exposed.init conn services) s) : Accounted services s :=
  h.invariant (fun _ _ _ => Accounted.step) (.init conn services)

/-- The answers belong to the requests that no service holds any more, and those that are no errors
to the calls that were completed. -/
theorem Accounted.exists_answers (H : Accounted services s) :
    ∃ answers : List (RpcMessage × RpcMessage), responsesIn s.sent = answers.map Prod.snd ∧
      (requestsIn s.received).Perm
        (answers.map Prod.fst ++ s.self.closures.map fun held => held.request) ∧
      (∀ answer ∈ answers, Answers services answer.1 answer.2) ∧
      answers.filter (fun answer => answer.2.hasResponse) = s.completionAnswers :=
  ⟨s.self.produced, H.produced, H.handled ▸ H.finished, H.answers, H.completed⟩

/-- For every id there are as many answers and closures as there were requests. -/
theorem Accounted.countP_id (H : Accounted services s) (id : UInt64) :
    (responsesIn s.sent).countP (fun m => m.id = id) +
        s.self.closures.countP (fun held => held.request.id = id) =
      (requestsIn s.received).countP fun m => m.id = id := by
  have hids : (s.self.produced.map Prod.snd).countP (fun m => m.id = id) =
      (s.self.produced.map Prod.fst).countP fun m => m.id = id := by
    rw [List.countP_map, List.countP_map]
    refine List.countP_congr fun answer hanswer => ?_
    simp only [Function.comp_apply, (H.answers answer hanswer).id_eq.2]
  have hperm := H.finished.countP_eq fun m => decide (m.id = id)
  rw [List.countP_append, List.countP_map (l := s.self.closures)] at hperm
  rw [H.produced, hids, H.handled, hperm]
  rfl

/-- **Every request is answered once, or a service still works on it.** Whatever the peer has sent,
the answers that this end has sent belong, one for one, to the requests that have come and that no
service holds any more; each of them is what the table of services asks for, and has the id of its
request. Those that are no errors are, in order, the responses that services have completed their
calls with, each for the request of its call. So for every id there are as many answers and closures
as there were requests. -/
theorem answers_of_reachable {conn : Ptr}
    (h : Reachable Exposed.step (Exposed.init conn services) s) :
    (∃ answers : List (RpcMessage × RpcMessage), responsesIn s.sent = answers.map Prod.snd ∧
      (requestsIn s.received).Perm
        (answers.map Prod.fst ++ s.self.closures.map fun held => held.request) ∧
      (∀ answer ∈ answers, Answers services answer.1 answer.2) ∧
      answers.filter (fun answer => answer.2.hasResponse) = s.completionAnswers) ∧
    (∀ held ∈ s.self.closures, IsFound services held.request) ∧
    ∀ id : UInt64, (responsesIn s.sent).countP (fun m => m.id = id) +
        s.self.closures.countP (fun held => held.request.id = id) =
      (requestsIn s.received).countP fun m => m.id = id := by
  have H := accounted_of_reachable h
  exact ⟨H.exists_answers, fun held hheld => (H.held held hheld).2, H.countP_id⟩

/-- A peer sends `Put` twice with one id, and then a request that names no service with the same id;
the service completes the second call. -/
theorem answers_putRequest :
    ∃ s, run Exposed.step (.init 1 (some testServices))
        [.receive putRequest 50 [], .receive putRequest 51 [],
          .receive { putRequest with service? := none } 52 [], .runClosure 1 [7]] = some s ∧
      (requestsIn s.received).length = 3 ∧ (responsesIn s.sent).length = 2 ∧
      (∃ answers : List (RpcMessage × RpcMessage), responsesIn s.sent = answers.map Prod.snd ∧
        answers.filter (fun answer => answer.2.hasResponse) =
          [(putRequest, responseMessage 1 [7])]) ∧
      (responsesIn s.sent).countP (fun m => m.id = 1) +
          s.self.closures.countP (fun held => held.request.id = 1) =
        (requestsIn s.received).countP fun m => m.id = 1 := by
  have hrun : ((run Exposed.step (.init 1 (some testServices))
      [.receive putRequest 50 [], .receive putRequest 51 [],
        .receive { putRequest with service? := none } 52 [], .runClosure 1 [7]]).map
        fun s => ((requestsIn s.received).length, (responsesIn s.sent).length,
          s.completionAnswers)) = some (3, 2, [(putRequest, responseMessage 1 [7])]) := by
    decide +kernel
  obtain ⟨s, hs, hview⟩ := Option.map_eq_some_iff.mp hrun
  simp only [Prod.mk.injEq] at hview
  obtain ⟨hrequests, hresponses, hcompletions⟩ := hview
  obtain ⟨⟨answers, hsent, -, -, hfilter⟩, -, hcount⟩ := answers_of_reachable ⟨_, hs⟩
  exact ⟨s, hs, hrequests, hresponses, ⟨answers, hsent, hfilter.trans hcompletions⟩, hcount 1⟩

end Exposed

end MRpc
