import MRpc.Codec.AnyStream
import MRpc.Lib.Simulation
import MRpc.Rpc.AnyPeer
import MRpc.Rpc.Stream

/-!
# Serving any bytes

One end of a connection with its codec, and a peer that sends any bytes at all, in portions of any
size. An error that the decoder reports closes the connection: `defaultErrorCallback` frees it, and
the run ends there, since a closure that ran later would use the freed `Conn`. Up to then the end is
one that faces a peer which sends whole messages, those of the frames that lie in the stream of
bytes, and what it writes are the frames of the messages that it sends. So the requests in any
stream of bytes are answered once each.

## Main definitions

* `Facing`, `BytesAction`, `Facing.step`: an end, its buffers and what has arrived.
* `Facing.Refines`: the end that faces whole messages.

## Main results

* `Codec.env_onMessage`: what a call of `onMessage` does to the state of its callbacks.
* `Facing.reachable_of_step`: a step is matched by steps of the end that faces whole messages.
* `Facing.refines_exposed`: every run is matched, and every request is answered.
-/

namespace MRpc

open FixedWidth Machine WhileLoop

/-! ### The state of the callbacks -/

namespace Codec

variable {σ Msg : Type} {c : Codec Msg} {cb : Callbacks σ Msg} (hcb : cb.rawCb = none)
  {handle : σ → Msg → σ} (hhandle : ∀ env buf m, cb.messageCallback env buf m = handle env m)
  (herror : ∀ env code, cb.errorCallback env code = env)

include hcb hhandle herror in
theorem env_onMessageBody {readBuf : Bytes} {env : σ} {it : Iteration σ Msg}
    (hit : c.onMessageBody cb readBuf env = it) :
    it.env = (messages it.events).foldl handle env := by
  have hcall {buf : Bytes} {len : Int} {ok : Bool} {env' : σ} {raw : List (Event Msg)}
      (h : cb.callRaw env buf len = (ok, env', raw)) : env' = env ∧ raw = [] := by
    simp only [Callbacks.callRaw, hcb, Prod.mk.injEq] at h
    exact ⟨h.2.1.symm, h.2.2.symm⟩
  rcases onMessageBody_cases (c := c) cb readBuf env with ⟨-, hb⟩ | ⟨-, -, ⟨-, hb⟩ |
    ⟨-, env', raw, ⟨hraw, hb⟩ | ⟨hraw, ⟨-, hb⟩ | ⟨m, -, hb⟩ | ⟨e, m, -, -, hb⟩⟩⟩⟩ <;>
    obtain rfl := hb.symm.trans hit
  case inl => exact herror env _
  case inr.inl => rfl
  all_goals obtain ⟨rfl, rfl⟩ := hcall hraw
  case inr.inr.inl => rfl
  case inr.inr.inr.inl => rfl
  case inr.inr.inr.inr.inl => exact hhandle _ _ m
  case inr.inr.inr.inr.inr => exact herror _ e

include hcb hhandle herror in
/-- Callbacks that look at the messages only have handled those that the call has handed over. -/
theorem env_onMessage {readBuf : Bytes} {env : σ} {s : ReadState σ Msg}
    (h : c.onMessage cb ⟨readBuf, env, []⟩ = some s) :
    s.env = (messages s.trace).foldl handle env := by
  have hround {a : ReadState σ Msg} {it : Iteration σ Msg}
      (ha : a.env = (messages a.trace).foldl handle env)
      (hit : c.onMessageBody cb a.readBuf a.env = it) :
      it.env = (messages (a.trace ++ it.events)).foldl handle env := by
    rw [messages_append, List.foldl_append, ← ha]
    exact env_onMessageBody hcb hhandle herror hit
  obtain ⟨b, hb, hQ⟩ := eval_induction (decreasing_onMessageRound c cb)
    (a := (⟨readBuf, env, []⟩ : ReadState σ Msg))
    (P := fun a => a.env = (messages a.trace).foldl handle env)
    (Q := fun a => a.env = (messages a.trace).foldl handle env) rfl
    (by
      intro a b ha hab
      obtain ⟨it, hit, -, -, rfl⟩ := onMessageRound_again hab
      exact hround ha hit)
    (by
      intro a b ha hab
      rcases onMessageRound_done hab with ⟨-, rfl⟩ | ⟨it, hit, -, -, rfl⟩
      · exact ha
      · exact hround ha hit)
  obtain rfl : s = b := Option.some.inj (h.symm.trans hb)
  exact hQ

end Codec

/-! ### An end, its buffers and what has arrived -/

variable {Msg : Type}

/-- One end of a connection, its read buffer, the bytes that have arrived and those that it has
written, and whether the connection was closed. -/
structure Facing (Msg : Type) where
  self : End Msg
  readBuf : Bytes
  arrived : Bytes
  written : Bytes
  closed : Bool
  /-- The requests whose calls services have completed, with the responses, serialized. -/
  completions : List (RpcMessage × Bytes)

/-- What may happen. -/
inductive BytesAction (Msg : Type)
  | callMethod (call : Call Msg)
  | otherCall
  | runClosure (index : Nat) (data : Bytes)
  /-- Any bytes arrive, and `onMessage` is called. -/
  | arrive (bytes : Bytes) (script : List (Ptr × List (Call Msg)))

namespace Facing

/-- A new connection. -/
def init (conn : Ptr) (services : Option (ServiceTable Msg)) : Facing Msg :=
  ⟨.init conn services, [], [], [], false, []⟩

section Model

variable (c : Codec RpcMessage)

/-- The end is now `e`, and sends `ms`. -/
def sends (L : ChainLayout) (s : Facing Msg) (e : End Msg) (ms : List RpcMessage) :
    Option (Facing Msg) :=
  (sendAll c L s.written ms).map fun w => { s with self := e, written := w }

/-- One step. An assertion that fails ends the run, and so does a read outside the buffer; after an
error the connection is closed. -/
def step (L : ChainLayout) (s : Facing Msg) (a : BytesAction Msg) : Option (Facing Msg) :=
  if s.closed then none
  else match a with
    | .callMethod call =>
      let (e, sent) := s.self.callMethod call
      s.sends c L e sent
    | .otherCall => some { s with self := s.self.otherCall }
    | .runClosure index data =>
      match s.self.runClosure index data with
      | none => none
      | some (e, sent) =>
        { s with completions := s.completions ++ Exposed.completing s.self index data }.sends c L
          e sent
    | .arrive bytes script =>
      match c.onMessage (channelCallbacks c L)
          ⟨s.readBuf ++ bytes, some ⟨s.self, s.written, script⟩, []⟩ with
      | none => none
      | some r =>
        if overreads r.trace then none
        else r.env.map fun h =>
          { s with
            self := h.node
            readBuf := r.readBuf
            arrived := s.arrived ++ bytes
            written := h.writeBuf
            closed := decide (errors r.trace ≠ []) }

end Model

/-- The end faces a peer that sends whole messages: those of the frames that lie in what has
arrived, and what it has written are the frames of what it has sent. -/
structure Refines (c : Codec RpcMessage) (s : Facing Msg) (e : Exposed Msg) : Prop where
  self_eq : e.self = s.self
  completions_eq : e.completions = s.completions
  written : s.written = c.wireFrames e.sent
  arrived : ∃ taken, s.arrived = taken ++ s.readBuf ∧ c.InOrder taken e.received

variable {c : Codec RpcMessage} {L : ChainLayout} {s t : Facing Msg}

/-! ### One step -/

/-- What a step can do: the end does something of its own, or bytes arrive and their messages are
handled one after the other. -/
theorem step_cases {a : BytesAction Msg} (h : s.step c L a = some t) :
    (∃ b sent, (∀ received sent₀, Exposed.step ⟨s.self, received, sent₀, s.completions⟩ b =
        some ⟨t.self, received, sent₀ ++ sent, t.completions⟩) ∧ s.self.Logs t.self sent ∧
      sendAll c L s.written sent = some t.written ∧ t.readBuf = s.readBuf ∧
      t.arrived = s.arrived) ∨
    ∃ bytes script r w, c.onMessage (channelCallbacks c L)
        ⟨s.readBuf ++ bytes, some ⟨s.self, s.written, script⟩, []⟩ = some r ∧
      (messages r.trace).foldlM (Handling.onRpcMessage c L) ⟨s.self, s.written, script⟩ =
        some ⟨t.self, t.written, w⟩ ∧ t.readBuf = r.readBuf ∧ t.arrived = s.arrived ++ bytes ∧
      t.completions = s.completions := by
  rw [step.eq_def] at h
  split_ifs at h
  cases a with
  | callMethod call =>
    obtain ⟨w, hw, rfl⟩ := Option.map_eq_some_iff.mp h
    exact Or.inl ⟨.callMethod call, (s.self.callMethod call).2, fun _ _ => rfl,
      End.logs_callMethod s.self call, hw, rfl, rfl⟩
  | otherCall =>
    obtain rfl := Option.some.inj h
    refine Or.inl ⟨.otherCall, [], fun _ _ => ?_, ⟨fun _ hm => hm, by simp⟩, rfl, rfl, rfl⟩
    rw [List.append_nil]
    rfl
  | runClosure index data =>
    simp only at h
    split at h
    case h_1 => cases h
    case h_2 e sent hrun =>
      obtain ⟨w, hw, rfl⟩ := Option.map_eq_some_iff.mp h
      exact Or.inl ⟨.runClosure index data, sent, fun _ _ => by simp only [Exposed.step, hrun],
        End.logs_runClosure hrun, hw, rfl, rfl⟩
  | arrive bytes script =>
    simp only at h
    split at h
    case h_1 => cases h
    case h_2 r hr =>
      split_ifs at h
      obtain ⟨handling, henv, rfl⟩ := Option.map_eq_some_iff.mp h
      refine Or.inr ⟨bytes, script, r, handling.script, hr, ?_, rfl, rfl, rfl⟩
      have hfold := Codec.env_onMessage rfl (fun _ _ _ => rfl) (fun _ _ => rfl) hr
      rw [foldl_channelCallbacks, Option.bind_some, henv] at hfold
      exact hfold.symm

/-- The messages of a buffer are handled one after the other, each of them as a step of the end that
faces whole messages, and what is sent on the way is framed in order. -/
theorem reachable_of_foldlM (hproto : c.proto.Lawful) {ms : List RpcMessage} {h h' : Handling Msg}
    (hms : ms.foldlM (Handling.onRpcMessage c L) h = some h') (hfits : h'.node.Fits c)
    (received sent₀ : List RpcMessage) (completions : List (RpcMessage × Bytes)) :
    ∃ sent, h'.writeBuf = h.writeBuf ++ c.wireFrames sent ∧
      Reachable Exposed.step ⟨h.node, received, sent₀, completions⟩
        ⟨h'.node, received ++ ms, sent₀ ++ sent, completions⟩ := by
  obtain ⟨sent, -, hwrite, handled, hhandled, hreach⟩ :=
    Handling.exists_sent_of_foldlM hproto
      (P := fun rest e sent => ∃ handled, handled ++ rest = ms ∧
        Reachable Exposed.step ⟨h.node, received, sent₀, completions⟩
          ⟨e, received ++ handled, sent, completions⟩)
      (by
        rintro m rest e e' sent new response calls ⟨handled, hhandled, hreach⟩ hreceive
        have hstep : Exposed.step ⟨e, received ++ handled, sent, completions⟩
            (.receive m response calls) =
              some ⟨e', received ++ (handled ++ [m]), sent ++ new, completions⟩ := by
          simp only [Exposed.step, hreceive, List.append_assoc]
        exact ⟨handled ++ [m], by rw [List.append_assoc]; exact hhandled,
          hreach.trans (.of_step hstep)⟩)
      sent₀ hms hfits ⟨[], rfl, by rw [List.append_nil]; exact .refl _⟩
  obtain rfl : handled = ms := (List.append_nil handled).symm.trans hhandled
  exact ⟨sent, hwrite, hreach⟩

/-- What the end has sent, it has sent. -/
theorem fits_of_step {a : BytesAction Msg} (h : s.step c L a = some t) (hfits : t.self.Fits c) :
    s.self.Fits c := by
  rcases step_cases h with ⟨b, sent, -, hlogs, -⟩ | ⟨bytes, script, r, w, -, hfold, -⟩
  · exact hlogs.fits hfits
  · exact Handling.fits_of_foldlM hfold hfits

/-- **A step of an end that any bytes reach** is matched by steps of the end that faces whole
messages. -/
theorem reachable_of_step (hproto : c.proto.Lawful) {e : Exposed Msg} (H : Refines c s e)
    {a : BytesAction Msg} (hfits : t.self.Fits c) (h : s.step c L a = some t) :
    ∃ e', Reachable Exposed.step e e' ∧ Refines c t e' := by
  obtain ⟨self, received, sent₀, completions⟩ := e
  obtain ⟨rfl, rfl, hwritten, taken, harrived, horder⟩ := H
  rcases step_cases h with ⟨b, sent, hstep, hlogs, hsend, hbuf, harr⟩ |
    ⟨bytes, script, r, w, hr, hfold, hbuf, harr, hcompletions⟩
  · refine ⟨_, .of_step (hstep received sent₀), rfl, rfl, ?_, taken, by rw [harr, hbuf, harrived],
      horder⟩
    rw [sendAll_eq hproto L (hlogs.fits_sent hfits)] at hsend
    rw [← Option.some.inj hsend, hwritten, Codec.wireFrames_append]
  · obtain ⟨sent, hwrite, hreach⟩ :=
      reachable_of_foldlM hproto hfold hfits received sent₀ s.completions
    obtain ⟨more, new, hmore, htrace, horder', -⟩ := Codec.inOrder_onMessage hr
    rw [List.nil_append] at htrace
    simp only at hmore hwrite
    refine ⟨_, hreach, rfl, hcompletions.symm, ?_, taken ++ more, ?_, ?_⟩
    · rw [hwrite, hwritten, Codec.wireFrames_append]
    · rw [harr, harrived, hbuf, List.append_assoc, hmore, List.append_assoc]
    · rw [htrace]
      exact horder.append horder'

/-! ### Whole runs -/

/-- **The requests in any stream of bytes are answered once.** Whatever bytes have arrived, in
whatever portions, and as long as every message that the end has sent fits into a frame, the end is
one that faces a peer which sends whole messages, those of frames that lie in the stream one after
the other; it has written the frames of its messages and nothing else; its answers belong, one for
one, to the requests among these messages that no service holds any more, each is what the table of
services asks for, those that are no errors carry what services have completed their calls with, and
for every id there are as many answers and closures as requests. -/
theorem refines_exposed (hproto : c.proto.Lawful) (L : ChainLayout) (conn : Ptr)
    (services : Option (ServiceTable Msg))
    (h : Reachable (Facing.step c L) (.init conn services) s) (hfits : s.self.Fits c) :
    ∃ e, Reachable Exposed.step (.init conn services) e ∧ e.self = s.self ∧
      s.written = c.wireFrames e.sent ∧ c.InOrder s.arrived e.received ∧
      (∃ answers : List (RpcMessage × RpcMessage), responsesIn e.sent = answers.map Prod.snd ∧
        (requestsIn e.received).Perm
          (answers.map Prod.fst ++ s.self.closures.map fun held => held.request) ∧
        (∀ answer ∈ answers, Answers services answer.1 answer.2) ∧
        answers.filter (fun answer => answer.2.hasResponse) = s.completions.map fun completion =>
          (completion.1, responseMessage completion.1.idInt64 completion.2)) ∧
      ∀ id : UInt64, (responsesIn e.sent).countP (fun m => m.id = id) +
          s.self.closures.countP (fun held => held.request.id = id) =
        (requestsIn e.received).countP fun m => m.id = id := by
  have hinit : Refines c (.init conn services) (.init conn services : Exposed Msg) :=
    ⟨rfl, rfl, rfl, [], rfl, .nil⟩
  obtain ⟨as, hrun⟩ := h
  obtain ⟨e, he, hself, hcompletions, hwritten, taken, harrived, horder⟩ :=
    exists_simulation (R := Refines c) (Q := fun _ _ _ => True) (C := fun s => s.self.Fits c)
    (fun _ _ _ _ hstep hC => fits_of_step hstep hC)
    (fun _ _ _ _ _ hC H hstep => reachable_of_step hproto H hC hstep) hinit hrun
    (fun _ _ _ _ _ _ _ _ => trivial) hfits
  have H := Exposed.accounted_of_reachable he
  refine ⟨e, he, hself, hwritten, ?_, ?_, hself ▸ H.countP_id⟩
  · rw [harrived]
    exact horder.skip _
  · rw [← hself, ← hcompletions]
    exact H.exists_answers

/-- A request that names no service, a call of `Put`, and bytes that are no frame. -/
def mixedBytes : Bytes :=
  rpcCodec.wireFrame { putRequest with service? := none } ++
    (rpcCodec.wireFrame putRequest ++ [0, 0, 0, 1, 0, 0, 0, 0, 0, 0, 0, 0])

/-- The first request is answered with an error, a service has the second one, and the connection is
closed. -/
theorem refines_exposed_mixedBytes :
    ∃ s, run (Facing.step rpcCodec .single) (.init 1 (some testServices))
        [.arrive mixedBytes [(50, []), (51, [])]] = some s ∧ s.closed = true ∧
      s.self.closures.length = 1 ∧
      ∃ e, Reachable Exposed.step (.init 1 (some testServices)) e ∧ e.self = s.self ∧
        s.written = rpcCodec.wireFrames e.sent ∧ rpcCodec.InOrder s.arrived e.received := by
  have hrun : ((run (Facing.step rpcCodec .single) (.init 1 (some testServices))
      [.arrive mixedBytes [(50, []), (51, [])]]).map fun s => (s.closed, s.self.closures.length,
        s.self.sentLog.all fun m => (rpcCodec.wireBody m).length ≤ maxMessageLen)) =
      some (true, 1, true) := by decide +kernel
  obtain ⟨s, hs, hview⟩ := Option.map_eq_some_iff.mp hrun
  simp only [Prod.mk.injEq] at hview
  obtain ⟨hclosed, hclosures, hsent⟩ := hview
  have hfits : s.self.Fits rpcCodec := by simpa [End.Fits] using hsent
  obtain ⟨e, he, hself, hwritten, horder, -⟩ :=
    refines_exposed rpcCodec_lawful .single 1 (some testServices) ⟨_, hs⟩ hfits
  exact ⟨s, hs, hclosed, hclosures, e, he, hself, hwritten, horder⟩

end Facing

end MRpc
