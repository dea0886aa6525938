import Mathlib.Data.List.Nodup
import Mathlib.Data.List.Perm.Basic
import MRpc.Lib.Entries
import MRpc.Lib.Machine
import MRpc.Rpc.Dispatch

/-!
# Agreement of the two ends of a connection

A client channel and a server channel exchange whole messages over two links, each of which keeps
the order and loses nothing. Calls overlap, services complete them in any order, and errors are
answered on another path than successes. An answer is tied to its call by nothing but the id.

The state keeps, besides the two processes and what is on the way, what has happened so far: the
calls that were issued, the requests that the server has handled, the answers it has produced and
for which request, and what the client did with the answers it got. No function of the channel
reads them.

## Main definitions

* `Link`, `Action`, `Link.step`: two channels, two links and the closures that services hold.
* `Link.Agreement`: no call is lost, answered twice or given the answer to another one.
* `Link.Inv`: the invariant.

## Main results

* `Link.Inv.step`: what one step preserves.
* `Link.agreement_of_reachable`: agreement in every reachable state.
-/

namespace MRpc

open FixedWidth Machine

variable {Msg : Type}

/-! ### Effects on a link -/

/-- The messages that are sent on a connection. -/
def sentOn (conn : Option Ptr) (effects : List (Effect Msg)) : List RpcMessage :=
  effects.filterMap fun
    | .send c m => if c = conn then some m else none
    | _ => none

/-- The calls that are entered in the table, with their ids. -/
def storedCalls (effects : List (Effect Msg)) : List (Int × Call Msg) :=
  effects.filterMap fun
    | .store id call => some (id, call)
    | _ => none

/-- The closures that are handed to services. -/
def closuresIn (effects : List (Effect Msg)) : List DoneClosure :=
  effects.filterMap fun
    | .callService _ _ _ closure => some closure
    | _ => none

section Append

variable (conn : Option Ptr) (es fs : List (Effect Msg))

@[simp] theorem sentOn_append : sentOn conn (es ++ fs) = sentOn conn es ++ sentOn conn fs :=
  List.filterMap_append

@[simp] theorem storedCalls_append : storedCalls (es ++ fs) = storedCalls es ++ storedCalls fs :=
  List.filterMap_append

end Append

/-! ### Two ends of a connection -/

/-- A closure that a service holds, and the request it was made for. -/
structure HeldClosure where
  request : RpcMessage
  closure : DoneClosure

/-- The two ends of a connection, what is on the way between them, and what has happened. -/
structure Link (Msg : Type) where
  client : Process Msg
  server : Process Msg
  /-- From the client to the server, the oldest first. -/
  requests : List RpcMessage
  /-- From the server to the client, the oldest first. -/
  responses : List RpcMessage
  /-- The closures that services have not run yet. -/
  closures : List HeldClosure
  /-- The number of `CallMethod`s in the process of the client. -/
  callCount : Nat
  /-- The calls of the client, with their ids. -/
  issued : List (Int × Call Msg)
  /-- The messages that the server has handled. -/
  handled : List RpcMessage
  /-- The answers that the server has sent, each after the request it was produced for. -/
  produced : List (RpcMessage × RpcMessage)
  /-- The messages that the client has handled, with what it did. -/
  completed : List (RpcMessage × List (Effect Msg))

/-- What may happen next: a call of the client, a call on another channel of its process, the
arrival of the next request (`fresh` is the response object that is made for it), a service that
completes a call with a response that serializes to `data`, or the arrival of the next response,
whose closure issues the calls `nested`. -/
inductive Action (Msg : Type)
  | callMethod (call : Call Msg)
  | otherCall
  | deliverRequest (fresh : Ptr)
  | runClosure (index : Nat) (data : Bytes)
  | deliverResponse (nested : List (Call Msg))

namespace Link

/-- A new connection; the server channel has the given table of services. -/
def init (clientConn serverConn : Ptr) (services : Option (ServiceTable Msg)) : Link Msg where
  client := ⟨0, .new clientConn⟩
  server := ⟨0, some serverConn, ∅, services⟩
  requests := []
  responses := []
  closures := []
  callCount := 0
  issued := []
  handled := []
  produced := []
  completed := []

/-- The client did `effects` and its process is now `p`. -/
def clientDid (s : Link Msg) (p : Process Msg) (effects : List (Effect Msg)) : Link Msg :=
  { s with
    client := p
    requests := s.requests ++ sentOn s.client.channel.conn effects
    callCount := s.callCount + (storedCalls effects).length
    issued := s.issued ++ storedCalls effects }

/-- The server did `effects` on behalf of `request`. -/
def serverDid (s : Link Msg) (request : RpcMessage) (effects : List (Effect Msg)) : Link Msg :=
  { s with
    responses := s.responses ++ sentOn s.server.channel.conn effects
    closures := s.closures ++ (closuresIn effects).map fun closure => ⟨request, closure⟩
    produced := s.produced ++
      (sentOn s.server.channel.conn effects).map fun response => (request, response) }

/-- One step; an assertion that fails ends the run. -/
def step (s : Link Msg) : Action Msg → Option (Link Msg)
  | .callMethod call =>
    let (p, effects) := s.client.callMethod call
    some (s.clientDid p effects)
  | .otherCall =>
    some { s with
      client := { s.client with lastId := int32 (s.client.lastId + 1) }
      callCount := s.callCount + 1 }
  | .deliverRequest fresh =>
    match s.requests with
    | [] => none
    | m :: rest =>
      match s.server.onRpcMessage s.server.channel.conn m [] fresh with
      | .error _ => none
      | .ok (p, effects) =>
        some ({ s with server := p, requests := rest, handled := s.handled ++ [m] }.serverDid
          m effects)
  | .runClosure index data =>
    match s.closures[index]? with
    | none => none
    | some held =>
      match s.server.channel.doneCallback held.closure data with
      | .error _ => none
      | .ok effects =>
        some ({ s with closures := s.closures.eraseIdx index }.serverDid held.request effects)
  | .deliverResponse nested =>
    match s.responses with
    | [] => none
    | m :: rest =>
      match s.client.onRpcMessage s.client.channel.conn m nested 0 with
      | .error _ => none
      | .ok (p, effects) =>
        some ({ s with responses := rest, completed := s.completed ++ [(m, effects)] }.clientDid
          p effects)

/-! ### Agreement -/

/-- The client handled the answer `m` to `call`: it parsed the response in `m`, and nothing else,
into the object of the call, and after that it ran the closure of the call, once. -/
structure Delivers (call : Call Msg) (m : RpcMessage) (effects : List (Effect Msg)) : Prop where
  runDone : ∀ done, .runDone done ∈ effects → call.done = some done
  parseResponse : ∀ response data, .parseResponse response data ∈ effects →
    call.response = some response ∧ m.response? = some data
  parses : ∀ response data, call.response = some response → m.response? = some data →
    .parseResponse response data ∈ effects
  runs : ∀ response done, call.response = some response → call.done = some done →
    ∃ pre post, effects = pre ++ .runDone done :: post ∧ (∀ d, .runDone d ∉ pre ++ post) ∧
      ∀ data, m.response? = some data → .parseResponse response data ∈ pre

/-- Every call is in one place, and is given the one answer that was produced for it. -/
structure Agreement (s : Link Msg) : Prop where
  /-- The ids of the calls are distinct. -/
  nodup_ids : (s.issued.map Prod.fst).Nodup
  /-- The id of every call is at one place: with a request on the way, with a closure that a
  service holds, with a response on the way, or with a response that the client has handled. -/
  places : (s.issued.map Prod.fst).Perm
    (s.requests.map RpcMessage.idInt64 ++ s.closures.map (fun held => held.closure.id) ++
      s.responses.map RpcMessage.idInt64 ++ s.completed.map (fun entry => entry.1.idInt64))
  /-- The server finishes each request with one message, or a service still holds its closure. -/
  finished : s.handled.Perm
    (s.produced.map Prod.fst ++ s.closures.map (fun held => held.request))
  /-- These messages are what the client gets, in order. -/
  emitted : s.completed.map Prod.fst ++ s.responses = s.produced.map Prod.snd
  /-- They are `RESPONSE`s with the id of the request. -/
  answers : ∀ answer ∈ s.produced, answer.2.type = .response ∧
    answer.2.idInt64 = answer.1.idInt64
  /-- The client handles the answer that was produced for the request of the call. -/
  delivered : ∀ entry ∈ s.completed, ∃ id call, (id, call) ∈ s.issued ∧ entry.1.idInt64 = id ∧
    (requestMessage id call, entry.1) ∈ s.produced ∧ Delivers call entry.1 entry.2
  /-- Nothing else was produced for this request. -/
  unique : ∀ a ∈ s.produced, ∀ b ∈ s.produced, a.1.idInt64 = b.1.idInt64 → a = b

/-! ### The invariant -/

/-- The links carry what was sent and not yet received, and the table of the client holds the calls
whose answer it has not handled. -/
structure Inv (s : Link Msg) : Prop where
  lastId_eq : s.client.lastId = s.callCount
  id_bounds : ∀ call ∈ s.issued, 1 ≤ call.1 ∧ call.1 ≤ s.callCount
  nodup_ids : (s.issued.map Prod.fst).Nodup
  outstanding_iff : ∀ id out, s.client.channel.outstandings[id]? = some out ↔
    (∃ call, (id, call) ∈ s.issued ∧ call.out = out) ∧
      id ∉ s.completed.map fun entry => entry.1.idInt64
  sent : s.handled ++ s.requests = s.issued.map fun call => requestMessage call.1 call.2
  emitted : s.completed.map Prod.fst ++ s.responses = s.produced.map Prod.snd
  finished : s.handled.Perm
    (s.produced.map Prod.fst ++ s.closures.map (fun held => held.request))
  held : ∀ held ∈ s.closures, held.closure.id = held.request.idInt64
  answers : ∀ answer ∈ s.produced, answer.2.type = .response ∧
    answer.2.idInt64 = answer.1.idInt64 ∧ (answer.2.hasResponse ∨ answer.2.hasError)
  delivered : ∀ entry ∈ s.completed, ∃ id call, (id, call) ∈ s.issued ∧ entry.1.idInt64 = id ∧
    (requestMessage id call, entry.1) ∈ s.produced ∧ Delivers call entry.1 entry.2

theorem Inv.init (clientConn serverConn : Ptr) (services : Option (ServiceTable Msg)) :
    Inv (Link.init clientConn serverConn services) := by
  constructor <;> simp [Link.init, RpcChannel.new]

namespace Inv

variable {s : Link Msg}

/-- The ids of the calls are the ids of their messages. -/
theorem ids_eq (H : Inv s) (hcount : s.callCount < 2147483647) :
    (s.handled ++ s.requests).map RpcMessage.idInt64 = s.issued.map Prod.fst := by
  rw [H.sent, List.map_map, Function.comp_def]
  refine List.map_congr_left fun call hcall => ?_
  have := H.id_bounds call hcall
  exact idInt64_requestMessage call.2 (by omega) (by omega)

/-- The requests that the server has finished or is working on have distinct ids. -/
theorem nodup_handled (H : Inv s) (hcount : s.callCount < 2147483647) :
    ((s.produced.map Prod.fst ++ s.closures.map (fun held => held.request)).map
      RpcMessage.idInt64).Nodup := by
  have h := H.nodup_ids
  rw [← H.ids_eq hcount, List.map_append] at h
  exact (H.finished.map _).nodup_iff.mp (List.nodup_append.mp h).1

theorem map_produced_snd (H : Inv s) :
    (s.produced.map Prod.snd).map RpcMessage.idInt64 =
      (s.produced.map Prod.fst).map RpcMessage.idInt64 := by
  rw [List.map_map, List.map_map, Function.comp_def, Function.comp_def]
  exact List.map_congr_left fun answer hanswer => (H.answers answer hanswer).2.1

theorem agreement (H : Inv s) (hcount : s.callCount < 2147483647) : Agreement s where
  nodup_ids := H.nodup_ids
  places := by
    have hheld : s.closures.map (fun held => held.closure.id) =
        (s.closures.map fun held => held.request).map RpcMessage.idInt64 := by
      rw [List.map_map, Function.comp_def]
      exact List.map_congr_left H.held
    have hcompleted : s.completed.map (fun entry => entry.1.idInt64) =
        (s.completed.map Prod.fst).map RpcMessage.idInt64 := by
      rw [List.map_map, Function.comp_def]
    have hemitted := congrArg (List.map RpcMessage.idInt64) H.emitted
    rw [H.map_produced_snd, List.map_append] at hemitted
    have hfinished := H.finished.map RpcMessage.idInt64
    rw [List.map_append, ← hemitted] at hfinished
    rw [← H.ids_eq hcount, List.map_append, hheld, hcompleted]
    refine List.perm_iff_count.mpr fun id => ?_
    have hid := hfinished.count_eq id
    simp only [List.count_append] at hid ⊢
    omega
  finished := H.finished
  emitted := H.emitted
  answers answer hanswer := ⟨(H.answers answer hanswer).1, (H.answers answer hanswer).2.1⟩
  delivered := H.delivered
  unique a ha b hb hid := by
    have hnodup := H.nodup_handled hcount
    rw [List.map_append] at hnodup
    have h := (List.nodup_append.mp hnodup).1
    rw [List.map_map, Function.comp_def] at h
    exact List.inj_on_of_nodup_map h ha hb hid

/-! ### Calls of the client -/

theorem id_notMem_completed (H : Inv s) {id : Int} (hid : (s.callCount : Int) < id) :
    id ∉ s.completed.map fun entry => entry.1.idInt64 := by
  intro hmem
  obtain ⟨entry, hentry, heq⟩ := List.mem_map.mp hmem
  obtain ⟨id', call, hcall, hid', -⟩ := H.delivered entry hentry
  have := H.id_bounds _ hcall
  rw [hid'] at heq
  simp only at this
  omega

theorem callMethod (H : Inv s) (hcount : s.callCount < 2147483647) (call : Call Msg) :
    Inv (s.clientDid (s.client.callMethod call).1 (s.client.callMethod call).2) := by
  have hid : int32 (s.client.lastId + 1) = (s.callCount + 1 : Int) := by
    rw [H.lastId_eq, int32_of_bounds (by omega) (by omega)]
  have hnew : ∀ c, (s.callCount + 1 : Int) ≠ c.1 ∨ c ∉ s.issued := by
    intro c
    by_contra hc
    push Not at hc
    have := H.id_bounds c hc.2
    omega
  simp only [clientDid, Process.callMethod, hid, sentOn, storedCalls, List.filterMap_cons,
    List.filterMap_nil, ↓reduceIte, List.length_singleton]
  refine ⟨?_, ?_, ?_, fun id out => ?_, ?_, H.emitted, H.finished, H.held, H.answers, ?_⟩
  · simp
  · intro c hc
    rcases List.mem_append.mp hc with hc | hc
    · have := H.id_bounds c hc
      push_cast
      omega
    · obtain rfl := List.mem_singleton.mp hc
      simp
  · rw [List.map_append, List.map_singleton, List.nodup_append]
    refine ⟨H.nodup_ids, by simp, ?_⟩
    intro a ha b hb
    obtain rfl := List.mem_singleton.mp hb
    obtain ⟨c, hc, rfl⟩ := List.mem_map.mp ha
    rintro heq
    exact (hnew c).elim (fun h => h heq.symm) fun h => h hc
  · rw [Entries.getElem?_insert]
    split_ifs with h
    · subst h
      have hfresh := H.id_notMem_completed (Int.lt_succ (s.callCount : Int))
      have hnone (c : Call Msg) : ((s.callCount + 1 : Int), c) ∉ s.issued :=
        (hnew (_, c)).resolve_left fun hne => hne rfl
      simp [hfresh, hnone, -List.mem_map]
    · simp [H.outstanding_iff, Ne.symm h, -List.mem_map]
  · rw [← List.append_assoc, H.sent, List.map_append, List.map_singleton]
  · intro entry hentry
    obtain ⟨id, call', hcall, hrest⟩ := H.delivered entry hentry
    exact ⟨id, call', List.mem_append_left _ hcall, hrest⟩

theorem otherCall (H : Inv s) (hcount : s.callCount < 2147483647) :
    Inv { s with
      client := { s.client with lastId := int32 (s.client.lastId + 1) }
      callCount := s.callCount + 1 } := by
  refine ⟨?_, fun call hcall => ?_, H.nodup_ids, H.outstanding_iff, H.sent, H.emitted, H.finished,
    H.held, H.answers, H.delivered⟩
  · rw [H.lastId_eq, int32_of_bounds (by omega) (by omega)]
    simp
  · have := H.id_bounds call hcall
    push_cast
    omega

theorem callMethods (H : Inv s) (calls : List (Call Msg))
    (hcount : (s.clientDid (s.client.callMethods calls).1
      (s.client.callMethods calls).2).callCount < 2147483647) :
    Inv (s.clientDid (s.client.callMethods calls).1 (s.client.callMethods calls).2) := by
  induction calls generalizing s with
  | nil => simpa [Process.callMethods, clientDid, sentOn, storedCalls] using H
  | cons call calls ih =>
    have hsplit : s.clientDid (s.client.callMethods (call :: calls)).1
        (s.client.callMethods (call :: calls)).2 =
      (s.clientDid (s.client.callMethod call).1 (s.client.callMethod call).2).clientDid
        ((s.client.callMethod call).1.callMethods calls).1
        ((s.client.callMethod call).1.callMethods calls).2 := by
      rw [Process.callMethods_cons]
      simp only [clientDid, sentOn_append, storedCalls_append, List.append_assoc,
        List.length_append, Nat.add_assoc]
      rfl
    rw [hsplit] at hcount ⊢
    have hle : s.callCount ≤ ((s.clientDid (s.client.callMethod call).1
        (s.client.callMethod call).2).clientDid
          ((s.client.callMethod call).1.callMethods calls).1
          ((s.client.callMethod call).1.callMethods calls).2).callCount := by
      simp only [clientDid]
      omega
    exact ih (H.callMethod (by omega) call) hcount

/-! ### The server -/

/-- Everything on the way to the server was sent by a call. -/
theorem exists_call_of_mem (H : Inv s) {m : RpcMessage} (hm : m ∈ s.handled ++ s.requests) :
    ∃ id call, (id, call) ∈ s.issued ∧ m = requestMessage id call := by
  rw [H.sent, List.mem_map] at hm
  obtain ⟨⟨id, call⟩, hcall, rfl⟩ := hm
  exact ⟨id, call, hcall, rfl⟩

/-- The server answers a request, which it has just read or which a service has completed, with a
`RESPONSE` that has the id of the request. -/
theorem answer (H : Inv s) (request response : RpcMessage) {requests handled : List RpcMessage}
    {closures : List HeldClosure} (hsent : handled ++ requests = s.handled ++ s.requests)
    (hheld : ∀ held ∈ closures, held ∈ s.closures)
    (hfinished : handled.Perm (s.produced.map Prod.fst ++ [request] ++
      closures.map (fun held => held.request)))
    (htype : response.type = .response) (hid : response.idInt64 = request.idInt64)
    (hcarry : response.hasResponse ∨ response.hasError) :
    Inv { s with
      requests := requests, handled := handled, closures := closures
      responses := s.responses ++ [response]
      produced := s.produced ++ [(request, response)] } := by
  refine ⟨H.lastId_eq, H.id_bounds, H.nodup_ids, H.outstanding_iff, hsent.trans H.sent, ?_, ?_,
    fun held h => H.held held (hheld held h), ?_, ?_⟩
  · rw [← List.append_assoc, H.emitted, List.map_append, List.map_singleton]
  · rwa [List.map_append, List.map_singleton]
  · intro answer hanswer
    rcases List.mem_append.mp hanswer with hanswer | hanswer
    · exact H.answers answer hanswer
    · obtain rfl := List.mem_singleton.mp hanswer
      exact ⟨htype, hid, hcarry⟩
  · intro entry hentry
    obtain ⟨id, call, hcall, hid, hproduced, hdelivers⟩ := H.delivered entry hentry
    exact ⟨id, call, hcall, hid, List.mem_append_left _ hproduced, hdelivers⟩

theorem deliverRequest (H : Inv s) {m : RpcMessage} {rest : List RpcMessage}
    (hrequests : s.requests = m :: rest) {fresh : Ptr} {p : Process Msg}
    {effects : List (Effect Msg)}
    (h : s.server.onRpcMessage s.server.channel.conn m [] fresh = .ok (p, effects)) :
    Inv ({ s with server := p, requests := rest, handled := s.handled ++ [m] }.serverDid
      m effects) := by
  obtain ⟨id, call, -, hm⟩ := H.exists_call_of_mem (m := m) (by simp [hrequests])
  have htype : m.type = .request := by rw [hm]; rfl
  have hsent : (s.handled ++ [m]) ++ rest = s.handled ++ s.requests := by simp [hrequests]
  rw [Process.onRpcMessage_request htype] at h
  rcases s.server.channel.dispatch_cases m fresh with
    ⟨error, herror, hdisp, -⟩ | ⟨_, service, method, request, -, -, hdisp⟩ | ⟨_, -, -, hdisp⟩
  · rw [RpcChannel.onRequest_of_error herror hdisp] at h
    cases h
    have hinv := H.answer m (errorMessage m error) hsent (fun _ h => h) ?_ rfl rfl (Or.inr rfl)
    · simpa [serverDid, sentOn, closuresIn] using hinv
    · refine (H.finished.append_right [m]).trans ?_
      rw [List.append_assoc, List.append_assoc]
      exact List.perm_append_comm.append_left _
  · rw [RpcChannel.onRequest_of_noError hdisp] at h
    cases h
    simp only [serverDid, sentOn, closuresIn, List.filterMap_cons, List.filterMap_nil,
      List.map_nil, List.map_singleton, List.append_nil]
    refine ⟨H.lastId_eq, H.id_bounds, H.nodup_ids, H.outstanding_iff, hsent.trans H.sent,
      H.emitted, ?_, ?_, H.answers, H.delivered⟩
    · simpa using H.finished.append_right [m]
    · intro held hheld
      rcases List.mem_append.mp hheld with hheld | hheld
      · exact H.held held hheld
      · obtain rfl := List.mem_singleton.mp hheld
        rfl
  · rw [RpcChannel.onRequest_of_assertion hdisp] at h
    cases h

theorem runClosure (H : Inv s) {index : Nat} {held : HeldClosure} {data : Bytes}
    (hheld : s.closures[index]? = some held) {effects : List (Effect Msg)}
    (h : s.server.channel.doneCallback held.closure data = .ok effects) :
    Inv ({ s with closures := s.closures.eraseIdx index }.serverDid held.request effects) := by
  obtain ⟨hlt, hget⟩ := List.getElem?_eq_some_iff.mp hheld
  have hperm := List.getElem_cons_eraseIdx_perm hlt
  rw [hget] at hperm
  have hid := H.held held (List.mem_of_getElem? hheld)
  obtain ⟨response, heffects⟩ : ∃ response, effects =
      [.send s.server.channel.conn (responseMessage held.closure.id data),
        .deleteResponse response] := by
    rw [RpcChannel.doneCallback] at h
    split at h
    · cases h
    · rename_i response _
      split_ifs at h
      cases h
      exact ⟨response, rfl⟩
  subst heffects
  have hsub : ∀ held ∈ s.closures.eraseIdx index, held ∈ s.closures :=
    fun _ h => List.mem_of_mem_eraseIdx h
  have hsent : s.handled ++ s.requests = s.handled ++ s.requests := rfl
  have hinv := H.answer held.request (responseMessage held.closure.id data) hsent hsub ?_ rfl ?_
    (Or.inl rfl)
  · simpa [serverDid, sentOn, closuresIn] using hinv
  · refine H.finished.trans ?_
    rw [List.append_assoc]
    exact ((hperm.map fun held => held.request).symm).append_left _
  · have hbounds := held.request.idInt64_bounds
    rw [idInt64_responseMessage data (by rw [hid]; exact hbounds.1) (by rw [hid]; exact hbounds.2),
      hid]

/-! ### The client -/

/-- The next response answers a call that the client has not completed. -/
theorem exists_call_of_responses (H : Inv s) (hcount : s.callCount < 2147483647)
    {m : RpcMessage} {rest : List RpcMessage} (hresponses : s.responses = m :: rest) :
    ∃ call, (m.idInt64, call) ∈ s.issued ∧ (requestMessage m.idInt64 call, m) ∈ s.produced ∧
      m.type = .response ∧ (m.hasResponse ∨ m.hasError) ∧
      m.idInt64 ∉ s.completed.map fun entry => entry.1.idInt64 := by
  have hemitted := H.emitted
  rw [hresponses] at hemitted
  have hmem : m ∈ s.produced.map Prod.snd := by
    rw [← hemitted]
    simp
  obtain ⟨⟨request, m'⟩, hproduced, rfl⟩ := List.mem_map.mp hmem
  obtain ⟨htype, hid, hcarry⟩ := H.answers _ hproduced
  have hhandled : request ∈ s.handled :=
    H.finished.mem_iff.mpr (List.mem_append_left _ (List.mem_map_of_mem hproduced))
  obtain ⟨id, call, hcall, rfl⟩ := H.exists_call_of_mem (List.mem_append_left s.requests hhandled)
  have hbounds := H.id_bounds _ hcall
  have hid' : m'.idInt64 = id := by
    rw [hid]
    exact idInt64_requestMessage call (by simp only at hbounds; omega)
      (by simp only at hbounds; omega)
  rw [hid']
  refine ⟨call, hcall, hproduced, htype, hcarry, ?_⟩
  have hnodup := H.nodup_handled hcount
  rw [List.map_append] at hnodup
  have hsnd := (List.nodup_append.mp hnodup).1
  rw [← H.map_produced_snd, ← hemitted, List.map_append, List.map_cons, List.map_map,
    Function.comp_def] at hsnd
  intro hmem
  exact (List.nodup_append.mp hsnd).2.2 _ hmem id (by simp [hid']) rfl

/-- What the client does with an answer, as far as the links see it: the calls of the closure. -/
theorem exists_calls_complete (p : Process Msg) (m : RpcMessage) (nested : List (Call Msg))
    (out : OutstandingCall) :
    ∃ calls, (p.complete m nested out).1 = (p.callMethods calls).1 ∧
      (∀ conn, sentOn conn (p.complete m nested out).2 = sentOn conn (p.callMethods calls).2) ∧
      storedCalls (p.complete m nested out).2 = storedCalls (p.callMethods calls).2 := by
  rcases out with ⟨_ | response, _ | done⟩
  · exact ⟨[], rfl, fun _ => rfl, rfl⟩
  · exact ⟨[], rfl, fun _ => rfl, rfl⟩
  · refine ⟨[], rfl, fun conn => ?_, ?_⟩ <;>
      by_cases hm : m.hasResponse <;> simp [Process.complete, Process.runDone, hm, sentOn,
        storedCalls, Process.callMethods]
  · refine ⟨nested, rfl, fun conn => ?_, ?_⟩ <;>
      by_cases hm : m.hasResponse <;> simp [Process.complete, Process.runDone, hm, sentOn,
        storedCalls]

theorem delivers_complete (p : Process Msg) (m : RpcMessage) (nested : List (Call Msg))
    (call : Call Msg) : Delivers call m (p.complete m nested call.out).2 := by
  have hcalls (e : Effect Msg) (he : e ∈ (p.callMethods nested).2) :
      (∀ done, e ≠ .runDone done) ∧ ∀ response data, e ≠ .parseResponse response data := by
    rcases Process.effect_callMethods he with ⟨id, call, rfl⟩ | ⟨conn, m, rfl⟩ <;> simp
  have hrun (done : Ptr) : .runDone done ∉ (p.callMethods nested).2 :=
    fun he => (hcalls _ he).1 done rfl
  have hparse (response : Ptr) (data : Bytes) :
      .parseResponse response data ∉ (p.callMethods nested).2 :=
    fun he => (hcalls _ he).2 response data rfl
  rw [Process.complete, Call.out]
  cases hr : call.response with
  | none => exact ⟨by simp, by simp, by simp [hr], by simp [hr]⟩
  | some response =>
    -- What is parsed is the response of the message, if it has one.
    have hparsed (data : Bytes) : m.response? = some data ↔
        (m.hasResponse = true ∧ m.response = data) := by
      rw [RpcMessage.hasResponse, RpcMessage.response]
      cases m.response? <;> simp
    cases hd : call.done with
    | none =>
      refine ⟨?_, ?_, ?_, by simp [hd]⟩ <;> by_cases hm : m.hasResponse <;>
        simp [Process.runDone, hm, hr, hparsed, eq_comm]
    | some done =>
      refine ⟨?_, ?_, ?_, fun response' done' hr' hd' => ?_⟩
      · by_cases hm : m.hasResponse <;> simp [Process.runDone, hm, hrun, hd, eq_comm]
      · by_cases hm : m.hasResponse <;> simp [Process.runDone, hm, hr, hparsed, hparse, eq_comm]
      · by_cases hm : m.hasResponse <;> simp [Process.runDone, hm, hr, hparsed, eq_comm]
      · obtain rfl := Option.some.inj (hr.symm.trans hr')
        obtain rfl := Option.some.inj (hd.symm.trans hd')
        refine ⟨if m.hasResponse then [.parseResponse response m.response] else [],
          (p.callMethods nested).2 ++ [.deleteResponse response], ?_, ?_, ?_⟩
        · simp [Process.runDone]
        · intro d
          by_cases hm : m.hasResponse <;> simp [hm, hrun]
        · intro data hdata
          obtain ⟨hm, rfl⟩ := (hparsed data).mp hdata
          simp [hm]

/-- An answer is taken from the stream, and its call leaves the table. -/
theorem takeResponse (H : Inv s) {m : RpcMessage} {rest : List RpcMessage}
    (hresponses : s.responses = m :: rest) {call : Call Msg} (hcall : (m.idInt64, call) ∈ s.issued)
    (hproduced : (requestMessage m.idInt64 call, m) ∈ s.produced) {effects : List (Effect Msg)}
    (hdelivers : Delivers call m effects) :
    Inv { s with
      client := s.client.forget m.idInt64
      responses := rest
      completed := s.completed ++ [(m, effects)] } := by
  refine ⟨H.lastId_eq, H.id_bounds, H.nodup_ids, fun id out => ?_, H.sent, ?_, H.finished, H.held,
    H.answers, ?_⟩
  · simp only [Process.forget, Entries.getElem?_erase, List.map_append, List.map_singleton,
      List.mem_append, List.mem_singleton, not_or]
    split_ifs with hid
    · simp [hid]
    · rw [H.outstanding_iff]
      simp [Ne.symm hid, -List.mem_map]
  · have hemitted := H.emitted
    rw [hresponses] at hemitted
    simpa using hemitted
  · intro entry hentry
    rcases List.mem_append.mp hentry with hentry | hentry
    · exact H.delivered entry hentry
    · obtain rfl := List.mem_singleton.mp hentry
      exact ⟨m.idInt64, call, hcall, rfl, hproduced, hdelivers⟩

theorem deliverResponse (H : Inv s) {m : RpcMessage} {rest : List RpcMessage}
    (hresponses : s.responses = m :: rest) {nested : List (Call Msg)} {p : Process Msg}
    {effects : List (Effect Msg)}
    (h : s.client.onRpcMessage s.client.channel.conn m nested 0 = .ok (p, effects))
    (hcount : (({ s with responses := rest, completed := s.completed ++ [(m, effects)] } :
      Link Msg).clientDid p effects).callCount < 2147483647) :
    Inv ({ s with responses := rest, completed := s.completed ++ [(m, effects)] }.clientDid
      p effects) := by
  have hle : s.callCount < 2147483647 := by
    simp only [clientDid] at hcount
    omega
  obtain ⟨call, hcall, hproduced, htype, hcarry, hnot⟩ := H.exists_call_of_responses hle hresponses
  have hout : s.client.channel.outstandings[m.idInt64]? = some call.out :=
    (H.outstanding_iff _ _).mpr ⟨⟨call, hcall, rfl⟩, hnot⟩
  rw [Process.onRpcMessage_response htype,
    Process.onResponse_of_some (by simpa using hcarry) hout] at h
  have hpair := Except.ok.inj h
  obtain ⟨calls, hp, hsent, hstored⟩ :=
    exists_calls_complete (s.client.forget m.idInt64) m nested call.out
  have hdelivers := delivers_complete (s.client.forget m.idInt64) m nested call
  rw [hpair] at hp hsent hstored hdelivers
  dsimp only at hp hsent hstored
  -- The call has left the table, and its closure has not issued any calls yet.
  let taken : Link Msg := { s with
    client := s.client.forget m.idInt64
    responses := rest
    completed := s.completed ++ [(m, effects)] }
  have hdid : ({ s with responses := rest, completed := s.completed ++ [(m, effects)] } :
      Link Msg).clientDid p effects =
        taken.clientDid (taken.client.callMethods calls).1 (taken.client.callMethods calls).2 := by
    simp only [clientDid, taken]
    rw [hp, hsent, hstored]
    rfl
  rw [hdid] at hcount ⊢
  exact (H.takeResponse hresponses hcall hproduced hdelivers).callMethods calls hcount

/-- **What one step preserves.** -/
theorem step {t : Link Msg} {a : Action Msg} (H : Inv s) (hcount : t.callCount < 2147483647)
    (h : s.step a = some t) : Inv t := by
  cases a with
  | callMethod call =>
    cases h
    refine H.callMethod ?_ call
    simp only [clientDid] at hcount
    omega
  | otherCall =>
    cases h
    exact H.otherCall (by simp only at hcount; omega)
  | deliverRequest fresh =>
    rw [Link.step] at h
    split at h
    · cases h
    · rename_i m rest hrequests
      split at h
      · cases h
      · rename_i p effects hok
        cases h
        exact H.deliverRequest hrequests hok
  | runClosure index data =>
    rw [Link.step] at h
    split at h
    · cases h
    · rename_i held hheld
      split at h
      · cases h
      · rename_i effects hok
        cases h
        exact H.runClosure hheld hok
  | deliverResponse nested =>
    rw [Link.step] at h
    split at h
    · cases h
    · rename_i m rest hresponses
      split at h
      · cases h
      · rename_i p effects hok
        cases h
        exact H.deliverResponse hresponses hok hcount

end Inv

/-- The number of calls never goes down. -/
theorem callCount_le {s t : Link Msg} {a : Action Msg} (h : s.step a = some t) :
    s.callCount ≤ t.callCount := by
  cases a with
  | callMethod call =>
    cases h
    simp only [clientDid]
    omega
  | otherCall =>
    cases h
    exact Nat.le_succ _
  | deliverRequest fresh =>
    rw [Link.step] at h
    split at h
    · cases h
    · split at h <;> cases h
      exact le_rfl
  | runClosure index data =>
    rw [Link.step] at h
    split at h
    · cases h
    · split at h <;> cases h
      exact le_rfl
  | deliverResponse nested =>
    rw [Link.step] at h
    split at h
    · cases h
    · split at h <;> cases h
      simp only [clientDid]
      omega

/-- **Request and response agree.** For every services table and in every state that the two
channels can reach, in whatever order calls are issued, messages arrive and services complete, while
the process of the client issues fewer than `2 ^ 31 - 1` calls: every call is in one place, the
server finishes every request with one `RESPONSE` of the same id, and the client gives a call the
answer that was produced for its request: it parses the response into the object of the call and
then runs the closure of the call, once. -/
theorem agreement_of_reachable (clientConn serverConn : Ptr)
    (services : Option (ServiceTable Msg)) {s : Link Msg}
    (h : Reachable Link.step (.init clientConn serverConn services) s)
    (hcount : s.callCount < 2147483647) : Agreement s := by
  have H : Inv s := h.invariant_of_backward (C := fun s => s.callCount < 2147483647)
    (fun s a t hst hlt => Nat.lt_of_le_of_lt (callCount_le hst) hlt)
    (fun s a t H hlt hst => H.step hlt hst) (Inv.init clientConn serverConn services) hcount
  exact H.agreement hcount

/-- The objects that responses are parsed into, with the bytes, and the closures that are run, in
order. -/
def parsedAndRun (effects : List (Effect Msg)) : List (Ptr × Option Bytes) :=
  effects.filterMap fun
    | .parseResponse response data => some (response, some data)
    | .runDone done => some (done, none)
    | _ => none

/-- Two calls of `Put` that overlap: the service completes the second one first, and each closure
runs after the bytes of its own response were parsed. -/
theorem agreement_putCall :
    ∃ s, run Link.step (.init 1 2 (some testServices)) [.callMethod (putCall 10 11),
        .callMethod (putCall 20 21), .deliverRequest 50, .deliverRequest 60, .runClosure 1 [8],
        .runClosure 0 [7], .deliverResponse [], .deliverResponse []] = some s ∧
      s.completed.flatMap (fun entry => parsedAndRun entry.2) =
        [(20, some [8]), (21, none), (10, some [7]), (11, none)] ∧
      Agreement s := by
  have hrun : (run Link.step (.init 1 2 (some testServices)) [.callMethod (putCall 10 11),
      .callMethod (putCall 20 21), .deliverRequest 50, .deliverRequest 60, .runClosure 1 [8],
      .runClosure 0 [7], .deliverResponse [], .deliverResponse []]).map (fun s => (s.callCount,
        s.completed.flatMap fun entry => parsedAndRun entry.2)) =
      some (2, [(20, some [8]), (21, none), (10, some [7]), (11, none)]) := by
    decide +kernel
  obtain ⟨s, hs, hsizes⟩ := Option.map_eq_some_iff.mp hrun
  obtain ⟨hcalls, hcompleted⟩ := Prod.mk.inj hsizes
  exact ⟨s, hs, hcompleted, agreement_of_reachable 1 2 (some testServices) ⟨_, hs⟩ (by omega)⟩

end Link

end MRpc
