import MRpc.Codec.Chunking
import MRpc.Rpc.Duplex

/-!
# The connection as a stream of bytes

The channel and the codec together: a message that one end sends is framed and appended to its
write buffer, TCP carries the bytes on in portions of its own choice, and each portion is appended
to the read buffer of the other end, where `onMessage` takes the frames out and hands their
messages to `onRpcMessage`, which may send messages of its own before the next frame is read.

The connection of whole messages (`Duplex`) is the abstraction. A run of the stream of bytes is a
run of it, as long as every message fits into a frame that the decoder admits, and no portion ends
inside a frame behind its header and tag, where the decoder loses the header.

## Main definitions

* `Handling`, `Handling.onRpcMessage`: the callback of the codec, with what it sends.
* `Stream`, `Stream.step`: two ends, their read buffers and the bytes between them.
* `Stream.Harmless`: the portions that end where the decoder can go on.
* `End.Fits`: every message that the end has sent fits.

## Main results

* `Codec.wireFrames_append_inj`: frames can be told apart.
* `Stream.refines_duplex`: the stream of bytes refines the connection of messages.
-/

namespace MRpc

open FixedWidth Machine

variable {Msg : Type}

section Model

variable (c : Codec RpcMessage)

/-! ### The callback of the codec -/

/-- What the callback of the codec works on while the frames of a read buffer are handled. The
script has, for each message to come, the response object that is made for a request and the calls
of the closure that an answer runs. -/
structure Handling (Msg : Type) where
  node : End Msg
  writeBuf : Bytes
  script : List (Ptr × List (Call Msg))

/-- `rpcCodeDer.send` for one message after the other. -/
def sendAll (L : ChainLayout) (writeBuf : Bytes) (ms : List RpcMessage) : Option Bytes :=
  ms.foldlM (c.send L .allOk) writeBuf

/-- `onRpcMessage` on the connection of the channel. -/
def Handling.onRpcMessage (L : ChainLayout) (h : Handling Msg) (m : RpcMessage) :
    Option (Handling Msg) :=
  match h.node.receive m (h.script.headD (0, [])).1 (h.script.headD (0, [])).2 with
  | none => none
  | some (e, sent) => (sendAll c L h.writeBuf sent).map fun w => ⟨e, w, h.script.tail⟩

/-- The callbacks that the channel gives to its codec; an assertion that fails ends the process.
`defaultErrorCallback` closes the connection, which is no part of the state here: the trace has the
error, and a harmless portion leads to none. -/
def channelCallbacks (L : ChainLayout) : Callbacks (Option (Handling Msg)) RpcMessage where
  rawCb := none
  messageCallback env _ m := env.bind fun h => h.onRpcMessage c L m
  errorCallback env _ := env

/-! ### Two ends and the bytes between them -/

/-- An end and its read buffer. -/
structure Terminal (Msg : Type) where
  node : End Msg
  readBuf : Bytes

/-- Two ends, and the bytes that were sent and have not reached a read buffer, in each direction. -/
structure Stream (Msg : Type) where
  left : Terminal Msg
  right : Terminal Msg
  toRight : Bytes
  toLeft : Bytes

/-- What may happen at one end. -/
inductive StreamAction (Msg : Type)
  | callMethod (call : Call Msg)
  | otherCall
  | runClosure (index : Nat) (data : Bytes)
  /-- The next `n` bytes arrive and `onMessage` is called. -/
  | arrive (n : Nat) (script : List (Ptr × List (Call Msg)))

namespace Stream

/-- A new connection. -/
def init (leftConn rightConn : Ptr) (leftServices rightServices : Option (ServiceTable Msg)) :
    Stream Msg :=
  ⟨⟨.init leftConn leftServices, []⟩, ⟨.init rightConn rightServices, []⟩, [], []⟩

/-- The connection seen from the other end. -/
def swap (s : Stream Msg) : Stream Msg := ⟨s.right, s.left, s.toLeft, s.toRight⟩

/-- The left end is now `e`, and sends `ms`. -/
def sends (L : ChainLayout) (s : Stream Msg) (e : End Msg) (ms : List RpcMessage) :
    Option (Stream Msg) :=
  (sendAll c L s.toRight ms).map fun w => { s with left := { s.left with node := e }, toRight := w }

/-- A step of the left end; an assertion that fails ends the run. -/
def stepLeft (L : ChainLayout) (s : Stream Msg) : StreamAction Msg → Option (Stream Msg)
  | .callMethod call =>
    let (e, sent) := s.left.node.callMethod call
    s.sends c L e sent
  | .otherCall => some { s with left := { s.left with node := s.left.node.otherCall } }
  | .runClosure index data =>
    match s.left.node.runClosure index data with
    | none => none
    | some (e, sent) => s.sends c L e sent
  | .arrive n script =>
    match c.onMessage (channelCallbacks c L)
        ⟨s.left.readBuf ++ s.toLeft.take n, some ⟨s.left.node, s.toRight, script⟩, []⟩ with
    | none => none
    | some r => r.env.map fun h =>
        { s with left := ⟨h.node, r.readBuf⟩, toLeft := s.toLeft.drop n, toRight := h.writeBuf }

/-- A step of one of the ends. -/
def step (L : ChainLayout) (s : Stream Msg) : Side × StreamAction Msg → Option (Stream Msg)
  | (.left, a) => s.stepLeft c L a
  | (.right, a) => (s.swap.stepLeft c L a).map swap

/-- What stands in the read buffer of the left end after the arrival of `n` bytes: frames that the
decoder admits, and fewer bytes than a frame has at least. -/
def HarmlessLeft (s : Stream Msg) : StreamAction Msg → Prop
  | .arrive n _ => ∃ ms f, s.left.readBuf ++ s.toLeft.take n = c.wireFrames ms ++ f ∧
      (∀ m ∈ ms, (c.wireBody m).length ≤ maxMessageLen) ∧
      f.length < c.minFrameLen ∧
      (s.left.readBuf ++ s.toLeft.take n).length < 4294967296
  | _ => True

/-- The portion that arrives, if any, ends where the decoder can go on. -/
def Harmless (s : Stream Msg) : Side × StreamAction Msg → Prop
  | (.left, a) => s.HarmlessLeft c a
  | (.right, a) => s.swap.HarmlessLeft c a

end Stream

/-- The messages that the end has sent. -/
def End.sentLog (e : End Msg) : List RpcMessage :=
  e.issued.map (fun call => requestMessage call.1 call.2) ++ e.produced.map Prod.snd

/-- Every message that the end has sent makes a frame that the decoder admits. -/
def End.Fits (e : End Msg) : Prop :=
  ∀ m ∈ e.sentLog, (c.wireBody m).length ≤ maxMessageLen

end Model

/-! ### Frames can be told apart -/

namespace Codec

variable {c : Codec Msg}

/-- A frame says where it ends, and what its message is. -/
theorem wireFrame_append_inj (hP : c.proto.Lawful) {m m' : Msg} {x y : Bytes}
    (hm : (c.wireBody m).length ≤ maxMessageLen) (hm' : (c.wireBody m').length ≤ maxMessageLen)
    (h : c.wireFrame m ++ x = c.wireFrame m' ++ y) : m = m' ∧ x = y := by
  simp only [maxMessageLen] at hm hm'
  have hlen : (c.wireBody m).length = (c.wireBody m').length := by
    have hhead := congrArg beNat h
    rwa [wireFrame, wireFrame, List.append_assoc, List.append_assoc,
      beNat_be32_append (by omega), beNat_be32_append (by omega)] at hhead
  have hframes : (c.wireFrame m).length = (c.wireFrame m').length := by
    simp only [wireFrame, List.length_append, length_be32, hlen]
  obtain ⟨hframe, hrest⟩ := List.append_inj h hframes
  refine ⟨?_, hrest⟩
  have hbody : c.wireBody m = c.wireBody m' := by
    rw [wireFrame, wireFrame, hlen] at hframe
    exact List.append_cancel_left hframe
  have hv := verdict_wireBody hP (m := m) (by simpa only [maxMessageLen] using hm)
  rw [hbody, verdict_wireBody hP (m := m') (by simpa only [maxMessageLen] using hm')] at hv
  exact (Prod.mk.inj hv).2.symm

/-- Two ways to read a buffer as frames and a part of a frame are one. -/
theorem wireFrames_append_inj (hP : c.proto.Lawful) {ms ms' : List Msg} {f g : Bytes}
    (hms : ∀ m ∈ ms, (c.wireBody m).length ≤ maxMessageLen)
    (hms' : ∀ m ∈ ms', (c.wireBody m).length ≤ maxMessageLen)
    (hf : ∀ m z, (c.wireBody m).length ≤ maxMessageLen → f ≠ c.wireFrame m ++ z)
    (hg : ∀ m z, (c.wireBody m).length ≤ maxMessageLen → g ≠ c.wireFrame m ++ z)
    (h : c.wireFrames ms ++ f = c.wireFrames ms' ++ g) : ms = ms' ∧ f = g := by
  induction ms generalizing ms' with
  | nil =>
    rcases ms' with _ | ⟨m', ms'⟩
    · exact ⟨rfl, h⟩
    · rw [wireFrames_cons, List.append_assoc] at h
      exact absurd h (hf m' _ (hms' m' (by simp)))
  | cons m ms ih =>
    rcases ms' with _ | ⟨m', ms'⟩
    · rw [wireFrames_cons, List.append_assoc] at h
      exact absurd h.symm (hg m _ (hms m (by simp)))
    · rw [wireFrames_cons, wireFrames_cons, List.append_assoc, List.append_assoc] at h
      obtain ⟨rfl, hrest⟩ := wireFrame_append_inj hP (hms m (by simp)) (hms' m' (by simp)) h
      obtain ⟨rfl, rfl⟩ := ih (fun m hm => hms m (by simp [hm])) (fun m hm => hms' m (by simp [hm]))
        hrest
      exact ⟨rfl, rfl⟩

/-- Without `rawCb`, and with a callback that does not look at the buffer, frames are handled as
their messages one after the other. -/
theorem deliverFrames_fst {σ : Type} {cb : Callbacks σ Msg} (hcb : cb.rawCb = none)
    {handle : σ → Msg → σ} (hhandle : ∀ env buf m, cb.messageCallback env buf m = handle env m)
    (f : Bytes) (ms : List Msg) (env : σ) :
    (c.deliverFrames cb f ms env).1 = ms.foldl handle env := by
  induction ms generalizing env with
  | nil => rfl
  | cons m ms ih =>
    have hframe : (c.deliverFrame cb m (c.wireFrames ms ++ f) env).1 = handle env m := by
      simp only [deliverFrame, Callbacks.callRaw, hcb, hhandle]
    rw [deliverFrames, List.foldl_cons]
    simp only [hframe, ih]

end Codec

variable {c : Codec RpcMessage}

/-- Messages that fit are framed one after the other. -/
theorem sendAll_eq (hproto : c.proto.Lawful) (L : ChainLayout) {ms : List RpcMessage}
    (hms : ∀ m ∈ ms, (c.wireBody m).length ≤ maxMessageLen) (w : Bytes) :
    sendAll c L w ms = some (w ++ c.wireFrames ms) := by
  induction ms generalizing w with
  | nil =>
    rw [Codec.wireFrames, List.map_nil, List.flatten_nil, List.append_nil]
    rfl
  | cons m ms ih =>
    have hsend : c.send L .allOk w m = some (w ++ c.wireFrame m) := by
      rw [Codec.send, Codec.isFrame_wireFrame hproto (hms m (by simp)) L]
      rfl
    have hrest := ih (fun m hm => hms m (by simp [hm])) (w ++ c.wireFrame m)
    rw [sendAll] at hrest ⊢
    rw [List.foldlM_cons, hsend, Codec.wireFrames_cons, ← List.append_assoc, ← hrest]
    rfl

/-! ### What an end sends is logged -/

/-- The log of an end has grown from `e` to `e'`, and has the messages `sent`. -/
structure End.Logs (e e' : End Msg) (sent : List RpcMessage) : Prop where
  log : ∀ m ∈ e.sentLog, m ∈ e'.sentLog
  sent : ∀ m ∈ sent, m ∈ e'.sentLog

/-- Calls send their requests. -/
theorem Process.mem_sentOn_callMethods {p : Process Msg} {conn : Option Ptr}
    {calls : List (Call Msg)} {m : RpcMessage} (h : m ∈ sentOn conn (p.callMethods calls).2) :
    ∃ call ∈ storedCalls (p.callMethods calls).2, m = requestMessage call.1 call.2 := by
  induction calls generalizing p with
  | nil => cases h
  | cons call calls ih =>
    rw [callMethods_cons, sentOn_append, List.mem_append] at h
    rw [callMethods_cons, storedCalls_append]
    rcases h with h | h
    · simp only [callMethod, sentOn, List.filterMap_cons, List.filterMap_nil] at h
      split_ifs at h
      · obtain rfl := List.mem_singleton.mp h
        exact ⟨_, List.mem_append_left _ (List.mem_singleton.mpr rfl), rfl⟩
      · cases h
    · obtain ⟨call', hcall', rfl⟩ := ih h
      exact ⟨call', List.mem_append_right _ hcall', rfl⟩

theorem Process.mem_sentOn_onResponse {p q : Process Msg} {conn : Option Ptr} {m r : RpcMessage}
    {nested : List (Call Msg)} {effects : List (Effect Msg)}
    (h : p.onResponse m nested = .ok (q, effects)) (hr : r ∈ sentOn conn effects) :
    ∃ call ∈ storedCalls effects, r = requestMessage call.1 call.2 := by
  rw [onResponse] at h
  split_ifs at h with hcarry
  split at h
  · cases h
    cases hr
  · rename_i out _
    obtain ⟨calls, -, hsent, hstored⟩ :=
      Link.Inv.exists_calls_complete (p.forget m.idInt64) m nested out
    have heffects : ((p.forget m.idInt64).complete m nested out).2 = effects := by
      rw [Except.ok.inj h]
    rw [heffects] at hsent hstored
    rw [hsent] at hr
    rw [hstored]
    exact mem_sentOn_callMethods hr

namespace End

variable {e e' : End Msg} {sent : List RpcMessage}

theorem logs_called {e : End Msg} {p : Process Msg} {effects : List (Effect Msg)}
    {conn : Option Ptr} (h : ∀ m ∈ sentOn conn effects, ∃ call ∈ storedCalls effects,
      m = requestMessage call.1 call.2) : Logs e (e.called p effects) (sentOn conn effects) := by
  constructor
  · intro m hm
    simp only [sentLog, called, List.map_append, List.mem_append] at hm ⊢
    exact hm.imp_left Or.inl
  · intro m hm
    obtain ⟨call, hcall, rfl⟩ := h m hm
    simp only [sentLog, called, List.map_append, List.mem_append]
    exact Or.inl (Or.inr (List.mem_map_of_mem hcall))

theorem logs_served (e : End Msg) (request : RpcMessage) (effects : List (Effect Msg)) :
    Logs e (e.served request effects) (sentOn e.process.channel.conn effects) := by
  constructor
  · intro m hm
    simp only [sentLog, served, List.map_append, List.mem_append] at hm ⊢
    exact hm.imp_right Or.inl
  · intro m hm
    simp only [sentLog, served, List.map_append, List.mem_append, List.map_map]
    exact Or.inr (Or.inr (by simpa using hm))

theorem logs_callMethod (e : End Msg) (call : Call Msg) :
    Logs e (e.callMethod call).1 (e.callMethod call).2 := by
  change Logs e (e.called _ (e.process.callMethod call).2) (sentOn _ (e.process.callMethod call).2)
  refine logs_called fun m hm => ?_
  have hcalls : (e.process.callMethods [call]).2 = (e.process.callMethod call).2 :=
    List.append_nil _
  rw [← hcalls] at hm ⊢
  exact Process.mem_sentOn_callMethods hm

theorem logs_receive {m : RpcMessage} {fresh : Ptr} {nested : List (Call Msg)}
    (h : e.receive m fresh nested = some (e', sent)) : Logs e e' sent := by
  rcases receive_cases h with
    ⟨-, effects, -, rfl, rfl⟩ | ⟨-, p, effects, heffects, rfl, rfl⟩ | ⟨-, -, rfl, rfl⟩
  · obtain ⟨hlog, hsent⟩ := logs_served { e with handled := e.handled ++ [m] } m effects
    exact ⟨hlog, hsent⟩
  · have hcalls : ∀ r ∈ sentOn e.process.channel.conn effects, _ := fun r hr =>
      Process.mem_sentOn_onResponse heffects hr
    obtain ⟨hlog, hsent⟩ :=
      logs_called (e := { e with completed := e.completed ++ [(m, effects)] }) (p := p) hcalls
    exact ⟨hlog, hsent⟩
  · exact ⟨fun _ h => h, by simp⟩

theorem logs_runClosure {index : Nat} {data : Bytes}
    (h : e.runClosure index data = some (e', sent)) : Logs e e' sent := by
  obtain ⟨held, effects, -, -, rfl, rfl⟩ := runClosure_cases h
  obtain ⟨hlog, hsent⟩ :=
    logs_served { e with closures := e.closures.eraseIdx index } held.request effects
  exact ⟨hlog, hsent⟩

theorem Logs.fits (H : Logs e e' sent) (h : e'.Fits c) : e.Fits c := fun m hm => h m (H.log m hm)

theorem Logs.fits_sent (H : Logs e e' sent) (h : e'.Fits c) :
    ∀ m ∈ sent, (c.wireBody m).length ≤ maxMessageLen :=
  fun m hm => h m (H.sent m hm)

end End

/-! ### Handling the frames of a buffer -/

theorem foldl_channelCallbacks (L : ChainLayout) (ms : List RpcMessage)
    (env : Option (Handling Msg)) :
    ms.foldl (fun env m => env.bind fun h => h.onRpcMessage c L m) env =
      env.bind fun h => ms.foldlM (Handling.onRpcMessage c L) h := by
  induction ms generalizing env with
  | nil => exact (Option.bind_fun_some env).symm
  | cons m ms ih =>
    rw [List.foldl_cons, ih, Option.bind_assoc]
    rfl

/-- The log grows while messages are handled. -/
theorem Handling.logs_onRpcMessage {L : ChainLayout} {h h' : Handling Msg} {m : RpcMessage}
    (hm : h.onRpcMessage c L m = some h') :
    ∃ sent, h.node.receive m (h.script.headD (0, [])).1 (h.script.headD (0, [])).2 =
        some (h'.node, sent) ∧ End.Logs h.node h'.node sent ∧
      sendAll c L h.writeBuf sent = some h'.writeBuf := by
  rw [onRpcMessage] at hm
  split at hm
  · cases hm
  · rename_i e sent hreceive
    obtain ⟨w, hw, rfl⟩ := Option.map_eq_some_iff.mp hm
    exact ⟨sent, hreceive, End.logs_receive hreceive, hw⟩

theorem Handling.fits_of_foldlM {L : ChainLayout} {ms : List RpcMessage} {h h' : Handling Msg}
    (hms : ms.foldlM (Handling.onRpcMessage c L) h = some h') (hfits : h'.node.Fits c) :
    h.node.Fits c := by
  induction ms generalizing h with
  | nil =>
    obtain rfl : h = h' := Option.some.inj hms
    exact hfits
  | cons m ms ih =>
    rw [List.foldlM_cons] at hms
    obtain ⟨u, hu, hrest⟩ := Option.bind_eq_some_iff.mp hms
    obtain ⟨sent, -, hlogs, -⟩ := logs_onRpcMessage hu
    exact hlogs.fits (ih hrest)

/-- The rule for a buffer of messages. Let `P rest e sent` hold of the messages that are left, of
the end and of what it has sent, and let the handling of one message preserve it: then it holds when
the buffer is done, and what was sent on the way stands in the write buffer, framed in order. -/
theorem Handling.exists_sent_of_foldlM (hproto : c.proto.Lawful) {L : ChainLayout}
    {P : List RpcMessage → End Msg → List RpcMessage → Prop}
    (hstep : ∀ m rest e e' sent new response calls, P (m :: rest) e sent →
      e.receive m response calls = some (e', new) → P rest e' (sent ++ new))
    {ms : List RpcMessage} (sent₀ : List RpcMessage) {h h' : Handling Msg}
    (hms : ms.foldlM (Handling.onRpcMessage c L) h = some h') (hfits : h'.node.Fits c)
    (hP : P ms h.node sent₀) :
    ∃ sent, (∀ m ∈ sent, (c.wireBody m).length ≤ maxMessageLen) ∧
      h'.writeBuf = h.writeBuf ++ c.wireFrames sent ∧ P [] h'.node (sent₀ ++ sent) := by
  induction ms generalizing h sent₀ with
  | nil =>
    obtain rfl : h = h' := Option.some.inj hms
    exact ⟨[], by simp, by simp [Codec.wireFrames], by rwa [List.append_nil]⟩
  | cons m ms ih =>
    rw [List.foldlM_cons] at hms
    obtain ⟨u, hu, hrest⟩ := Option.bind_eq_some_iff.mp hms
    obtain ⟨new, hreceive, hlogs, hsend⟩ := logs_onRpcMessage hu
    have hnew := hlogs.fits_sent (fits_of_foldlM hrest hfits)
    rw [sendAll_eq hproto L hnew] at hsend
    obtain ⟨sent, hsent, hwrite, hP'⟩ := ih _ hrest (hstep _ _ _ _ _ _ _ _ hP hreceive)
    refine ⟨new ++ sent, ?_, ?_, by rwa [← List.append_assoc]⟩
    · intro r hr
      rcases List.mem_append.mp hr with hr | hr
      · exact hnew r hr
      · exact hsent r hr
    · rw [hwrite, ← Option.some.inj hsend, Codec.wireFrames_append, List.append_assoc]

/-- The left end handles the messages `ms` at the front of its stream: the connection of messages
makes as many steps, and what is sent on the way is framed in order. -/
theorem Handling.reachable_of_foldlM (hproto : c.proto.Lawful) {L : ChainLayout}
    {ms rest : List RpcMessage} {h h' : Handling Msg}
    (hms : ms.foldlM (Handling.onRpcMessage c L) h = some h')
    (hfits : h'.node.Fits c) {d : Duplex Msg} (hleft : d.left = h.node)
    (htoLeft : d.toLeft = ms ++ rest) :
    ∃ sent, (∀ m ∈ sent, (c.wireBody m).length ≤ maxMessageLen) ∧
      h'.writeBuf = h.writeBuf ++ c.wireFrames sent ∧
      Reachable Duplex.step d ⟨h'.node, d.right, d.toRight ++ sent, rest⟩ := by
  refine exists_sent_of_foldlM hproto
    (P := fun ms e sent =>
      Reachable Duplex.step d ⟨e, d.right, d.toRight ++ sent, ms ++ rest⟩)
    ?_ [] hms hfits ?_
  · intro m ms e e' sent new response calls hreach hreceive
    have hstep : Duplex.step ⟨e, d.right, d.toRight ++ sent, (m :: ms) ++ rest⟩
        (.left, .receive response calls) =
          some ⟨e', d.right, d.toRight ++ (sent ++ new), ms ++ rest⟩ := by
      simp only [Duplex.step, Duplex.stepLeft, List.cons_append, hreceive, List.append_assoc]
    exact hreach.trans (.of_step hstep)
  · rw [List.append_nil, ← hleft, ← htoLeft]
    exact .refl d

/-! ### The stream of bytes refines the connection of messages -/

namespace Stream

/-- The bytes on the way to an end and in its read buffer are the frames of the messages on the
way to it. -/
structure Refines (c : Codec RpcMessage) (s : Stream Msg) (d : Duplex Msg) : Prop where
  left : d.left = s.left.node
  right : d.right = s.right.node
  toLeft : s.left.readBuf ++ s.toLeft = c.wireFrames d.toLeft
  toRight : s.right.readBuf ++ s.toRight = c.wireFrames d.toRight
  fits_toLeft : ∀ m ∈ d.toLeft, (c.wireBody m).length ≤ maxMessageLen
  fits_toRight : ∀ m ∈ d.toRight, (c.wireBody m).length ≤ maxMessageLen

variable {L : ChainLayout} {s t : Stream Msg} {d : Duplex Msg}

theorem Refines.swap (H : Refines c s d) : Refines c s.swap d.swap :=
  ⟨H.right, H.left, H.toRight, H.toLeft, H.fits_toRight, H.fits_toLeft⟩

/-- The left end sends messages that fit. -/
theorem Refines.sends (hproto : c.proto.Lawful) (H : Refines c s d) {e : End Msg}
    {ms : List RpcMessage} (hms : ∀ m ∈ ms, (c.wireBody m).length ≤ maxMessageLen)
    (h : s.sends c L e ms = some t) :
    Refines c t { d with left := e, toRight := d.toRight ++ ms } := by
  rw [Stream.sends, sendAll_eq hproto L hms] at h
  cases h
  refine ⟨rfl, H.right, H.toLeft, ?_, H.fits_toLeft, ?_⟩
  · rw [Codec.wireFrames_append, ← H.toRight, List.append_assoc]
  · intro m hm
    rcases List.mem_append.mp hm with hm | hm
    · exact H.fits_toRight m hm
    · exact hms m hm

/-- A harmless portion: the buffer holds the frames of the next messages, and a part of a frame that
the decoder does not touch. -/
theorem exists_frames_of_harmless (hproto : c.proto.Lawful)
    (htag : c.tag.length + 8 < 4294967296) (H : Refines c s d) {n : Nat}
    {script : List (Ptr × List (Call Msg))} (h : s.HarmlessLeft c (.arrive n script)) :
    ∃ ms rest g, d.toLeft = ms ++ rest ∧
      s.left.readBuf ++ s.toLeft.take n = c.wireFrames ms ++ g ∧
      g ++ s.toLeft.drop n = c.wireFrames rest ∧ g.length < c.minFrameLen := by
  obtain ⟨ms, f, hbuf, hms, hf, -⟩ := h
  have hstream : (s.left.readBuf ++ s.toLeft.take n) ++ s.toLeft.drop n =
      c.wireFrames d.toLeft := by
    rw [List.append_assoc, List.take_append_drop, H.toLeft]
  obtain ⟨ms₁, ms₂, g, hsplit, hx, hy, hg, -⟩ := Codec.exists_cut_wireFrames d.toLeft hstream
  refine ⟨ms₁, ms₂, g, hsplit, hx, hy, ?_⟩
  have hfits₁ : ∀ m ∈ ms₁, (c.wireBody m).length ≤ maxMessageLen :=
    fun m hm => H.fits_toLeft m (by rw [hsplit]; exact List.mem_append_left _ hm)
  have hmin := Codec.minFrameLen_of_lt htag
  -- Both `f` and `g` are too short to hold a frame, so the two ways to read the buffer are one.
  have hf' (m : RpcMessage) (z : Bytes) (_ : (c.wireBody m).length ≤ maxMessageLen) :
      f ≠ c.wireFrame m ++ z := by
    rintro rfl
    rw [List.length_append, Codec.length_wireFrame, hmin] at hf
    omega
  have hg' (m : RpcMessage) (z : Bytes) (hm : (c.wireBody m).length ≤ maxMessageLen) :
      g ≠ c.wireFrame m ++ z := by
    rintro rfl
    rcases hg with ⟨-, hnil⟩ | ⟨m', ms', hms₂, hlt⟩
    · have := congrArg List.length hnil
      rw [List.length_append, Codec.length_wireFrame, List.length_nil] at this
      omega
    · have hm' := H.fits_toLeft m' (by rw [hsplit, hms₂]; simp)
      rw [hms₂, Codec.wireFrames_cons, List.append_assoc] at hy
      obtain ⟨rfl, -⟩ :=
        Codec.wireFrame_append_inj hproto hm hm' hy
      rw [List.length_append] at hlt
      omega
  obtain ⟨-, rfl⟩ := Codec.wireFrames_append_inj hproto hms hfits₁ hf' hg'
    (hbuf.symm.trans hx)
  exact hf

/-- The arrival of a portion after which the buffer holds frames and less than one more: their
messages are handled one after the other. -/
theorem stepLeft_arrive (hproto : c.proto.Lawful) {n : Nat}
    {script : List (Ptr × List (Call Msg))} {ms : List RpcMessage} {g : Bytes}
    (hbuf : s.left.readBuf ++ s.toLeft.take n = c.wireFrames ms ++ g)
    (hms : ∀ m ∈ ms, (c.wireBody m).length ≤ maxMessageLen)
    (hg : g.length < c.minFrameLen)
    (hlong : (s.left.readBuf ++ s.toLeft.take n).length < 4294967296) :
    s.stepLeft c L (.arrive n script) =
      (ms.foldlM (Handling.onRpcMessage c L) ⟨s.left.node, s.toRight, script⟩).map fun h =>
        { s with left := ⟨h.node, g⟩, toLeft := s.toLeft.drop n, toRight := h.writeBuf } := by
  have hcall := Codec.onMessage_wireFrames (channelCallbacks c L) hproto
    (some ⟨s.left.node, s.toRight, script⟩) [] hms hg (hbuf ▸ hlong)
  have henv : (c.deliverFrames (channelCallbacks c L) g ms
      (some ⟨s.left.node, s.toRight, script⟩)).1 = _ :=
    Codec.deliverFrames_fst rfl (fun _ _ _ => rfl) g ms _
  rw [foldl_channelCallbacks, Option.bind_some] at henv
  simp only [stepLeft, hbuf, hcall, henv]

/-- The arrival of a harmless portion: the messages whose frames are now complete are handled. -/
theorem reachable_of_arrive (hproto : c.proto.Lawful) (htag : c.tag.length + 8 < 4294967296)
    (H : Refines c s d) {n : Nat} {script : List (Ptr × List (Call Msg))}
    (hharmless : s.HarmlessLeft c (.arrive n script)) (hfits : t.left.node.Fits c)
    (h : s.stepLeft c L (.arrive n script) = some t) :
    ∃ d', Reachable Duplex.step d d' ∧ Refines c t d' := by
  obtain ⟨ms, rest, g, hsplit, hbuf, hrest, hg⟩ :=
    exists_frames_of_harmless hproto htag H hharmless
  obtain ⟨-, -, -, -, -, hlong⟩ := hharmless
  have hms : ∀ m ∈ ms, (c.wireBody m).length ≤ maxMessageLen :=
    fun m hm => H.fits_toLeft m (by rw [hsplit]; exact List.mem_append_left _ hm)
  rw [stepLeft_arrive hproto hbuf hms hg hlong] at h
  obtain ⟨h', hfold, rfl⟩ := Option.map_eq_some_iff.mp h
  obtain ⟨sent, hsent, hwrite, hreach⟩ :=
    Handling.reachable_of_foldlM hproto hfold hfits (d := d) H.left hsplit
  refine ⟨_, hreach, rfl, H.right, hrest, ?_, ?_, ?_⟩
  · simp only [hwrite, Codec.wireFrames_append, ← H.toRight, List.append_assoc]
  · exact fun m hm => H.fits_toLeft m (by rw [hsplit]; exact List.mem_append_right _ hm)
  · intro m hm
    rcases List.mem_append.mp hm with hm | hm
    · exact H.fits_toRight m hm
    · exact hsent m hm

theorem node_of_sends {e : End Msg} {ms : List RpcMessage} (h : s.sends c L e ms = some t) :
    t.left.node = e ∧ t.right = s.right := by
  rw [sends] at h
  obtain ⟨w, -, rfl⟩ := Option.map_eq_some_iff.mp h
  exact ⟨rfl, rfl⟩

/-- A step of the left end is matched by steps of the connection of messages. -/
theorem reachable_of_stepLeft (hproto : c.proto.Lawful) (htag : c.tag.length + 8 < 4294967296)
    (H : Refines c s d) {a : StreamAction Msg} (ha : s.HarmlessLeft c a)
    (hfits : t.left.node.Fits c) (h : s.stepLeft c L a = some t) :
    ∃ d', Reachable Duplex.step d d' ∧ Refines c t d' := by
  cases a with
  | callMethod call =>
    replace h : s.sends c L (s.left.node.callMethod call).1 (s.left.node.callMethod call).2 =
      some t := h
    have hsent := (End.logs_callMethod s.left.node call).fits_sent ((node_of_sends h).1 ▸ hfits)
    refine ⟨_, .of_step (a := (.left, .callMethod call)) ?_, H.sends hproto hsent h⟩
    rw [← H.left]
    rfl
  | otherCall =>
    cases h
    refine ⟨_, .of_step (a := (.left, .otherCall)) rfl, ?_⟩
    exact ⟨congrArg End.otherCall H.left, H.right, H.toLeft, H.toRight, H.fits_toLeft,
      H.fits_toRight⟩
  | runClosure index data =>
    rw [stepLeft] at h
    split at h
    · cases h
    rename_i e sent hrun
    have hsent := (End.logs_runClosure hrun).fits_sent ((node_of_sends h).1 ▸ hfits)
    refine ⟨_, .of_step (a := (.left, .runClosure index data)) ?_, H.sends hproto hsent h⟩
    simp only [Duplex.step, Duplex.stepLeft, H.left, hrun]
  | arrive n script => exact reachable_of_arrive hproto htag H ha hfits h

/-- What the ends have sent, they have sent. -/
theorem fits_of_stepLeft (hproto : c.proto.Lawful) {a : StreamAction Msg} (ha : s.HarmlessLeft c a)
    (h : s.stepLeft c L a = some t) (hfits : t.left.node.Fits c ∧ t.right.node.Fits c) :
    s.left.node.Fits c ∧ s.right.node.Fits c := by
  cases a with
  | callMethod call =>
    replace h : s.sends c L (s.left.node.callMethod call).1 (s.left.node.callMethod call).2 =
      some t := h
    obtain ⟨hleft, hright⟩ := node_of_sends h
    rw [hleft, hright] at hfits
    exact ⟨(End.logs_callMethod s.left.node call).fits hfits.1, hfits.2⟩
  | otherCall =>
    cases h
    exact hfits
  | runClosure index data =>
    rw [stepLeft] at h
    split at h
    · cases h
    rename_i e sent hrun
    obtain ⟨hleft, hright⟩ := node_of_sends h
    rw [hleft, hright] at hfits
    exact ⟨(End.logs_runClosure hrun).fits hfits.1, hfits.2⟩
  | arrive n script =>
    obtain ⟨ms, g, hbuf, hms, hg, hlong⟩ := ha
    rw [stepLeft_arrive hproto hbuf hms hg hlong] at h
    obtain ⟨h', hfold, rfl⟩ := Option.map_eq_some_iff.mp h
    exact ⟨Handling.fits_of_foldlM hfold hfits.1, hfits.2⟩

theorem step_right_iff {a : StreamAction Msg} :
    s.step c L (.right, a) = some t ↔ s.swap.stepLeft c L a = some t.swap := by
  rw [step, Option.map_eq_some_iff]
  constructor
  · rintro ⟨u, hu, rfl⟩
    exact hu
  · intro h
    exact ⟨t.swap, h, rfl⟩

theorem fits_of_step (hproto : c.proto.Lawful) {a : Side × StreamAction Msg}
    (ha : s.Harmless c a) (h : s.step c L a = some t)
    (hfits : t.left.node.Fits c ∧ t.right.node.Fits c) :
    s.left.node.Fits c ∧ s.right.node.Fits c := by
  obtain ⟨side, a⟩ := a
  cases side with
  | left => exact fits_of_stepLeft hproto ha h hfits
  | right => exact (fits_of_stepLeft hproto ha (step_right_iff.mp h) hfits.symm).symm

end Stream

/-- Seen from the other end, a run is a run. -/
theorem Duplex.reachable_swap {d d' : Duplex Msg} (h : Reachable Duplex.step d d') :
    Reachable Duplex.step d.swap d'.swap := by
  refine h.map (f := Duplex.swap) fun s a t hstep => ?_
  obtain ⟨side, a⟩ := a
  cases side with
  | left => exact .of_step (a := (.right, a)) (Duplex.step_right_iff.mpr hstep)
  | right => exact .of_step (a := (.left, a)) (Duplex.step_right_iff.mp hstep)

namespace Stream

variable {L : ChainLayout} {s t : Stream Msg} {d : Duplex Msg}

/-- **A step of the stream of bytes** is matched by steps of the connection of messages. -/
theorem reachable_of_step (hproto : c.proto.Lawful) (htag : c.tag.length + 8 < 4294967296)
    (H : Refines c s d) {a : Side × StreamAction Msg} (ha : s.Harmless c a)
    (hfits : t.left.node.Fits c ∧ t.right.node.Fits c) (h : s.step c L a = some t) :
    ∃ d', Reachable Duplex.step d d' ∧ Refines c t d' := by
  obtain ⟨side, a⟩ := a
  cases side with
  | left => exact reachable_of_stepLeft hproto htag H ha hfits.1 h
  | right =>
    obtain ⟨d', hd', H'⟩ :=
      reachable_of_stepLeft hproto htag H.swap ha hfits.2 (step_right_iff.mp h)
    exact ⟨d'.swap, Duplex.reachable_swap hd', H'.swap⟩

/-- **The stream of bytes refines the connection of messages.** Two channels, whose codec is over a
message type that behaves as documented, exchange frames over two streams of bytes, which arrive in
portions of any size. If every portion ends where the decoder can go on, with less than `2 ^ 32`
bytes in the buffer, and every message that was sent fits into a frame, then after every run the
ends are those of a run of the connection of messages, the bytes on the way and in the read buffers
are the frames of the messages on the way, and the calls of both ends agree with their answers while
each process has issued fewer than `2 ^ 31 - 1` calls. -/
theorem refines_duplex (hproto : c.proto.Lawful) (htag : c.tag.length + 8 < 4294967296)
    (L : ChainLayout) (leftConn rightConn : Ptr)
    (leftServices rightServices : Option (ServiceTable Msg)) {s : Stream Msg}
    {as : List (Side × StreamAction Msg)}
    (h : run (Stream.step c L) (.init leftConn rightConn leftServices rightServices) as = some s)
    (hharmless : EachStep (Stream.step c L) (fun s a _ => s.Harmless c a)
      (.init leftConn rightConn leftServices rightServices) as)
    (hleft : s.left.node.Fits c) (hright : s.right.node.Fits c) :
    ∃ d, Reachable Duplex.step (.init leftConn rightConn leftServices rightServices) d ∧
      Refines c s d ∧ (s.left.node.callCount < 2147483647 → Link.Agreement d.calls) ∧
      (s.right.node.callCount < 2147483647 → Link.Agreement d.swap.calls) := by
  have hinit : Refines c (.init leftConn rightConn leftServices rightServices)
      (.init leftConn rightConn leftServices rightServices : Duplex Msg) :=
    ⟨rfl, rfl, rfl, rfl, by simp [Duplex.init], by simp [Duplex.init]⟩
  have hback (u : Stream Msg) (a : Side × StreamAction Msg) (v : Stream Msg) (ha : u.Harmless c a)
      (hstep : Stream.step c L u a = some v) (hfits : v.left.node.Fits c ∧ v.right.node.Fits c) :
      u.left.node.Fits c ∧ u.right.node.Fits c := fits_of_step hproto ha hstep hfits
  obtain ⟨d, hd, H⟩ := exists_simulation (R := Refines c) hback
    (fun u a v d ha hfits H hstep => reachable_of_step hproto htag H ha hfits hstep) hinit h
    hharmless ⟨hleft, hright⟩
  refine ⟨d, hd, H, fun hcount => ?_, fun hcount => ?_⟩
  · rw [← H.left] at hcount
    exact (Link.Inv.of_reachable (Duplex.reachable_calls hd) hcount).agreement hcount
  · rw [← H.right] at hcount
    exact (Link.Inv.of_reachable (Duplex.reachable_swap_calls hd) hcount).agreement hcount

/-- A call of `Put` whose frame arrives in two portions, the first one of five bytes. -/
def putCallActions : List (Side × StreamAction Bytes) :=
  [(.left, .callMethod (putCall 10 11)), (.right, .arrive 5 []), (.right, .arrive 100 [(50, [])])]

theorem harmless_putCallActions :
    EachStep (Stream.step rpcCodec .single) (fun s a _ => s.Harmless rpcCodec a)
    (.init 1 2 (some testServices) (some testServices)) putCallActions := by
  set frame := rpcCodec.wireFrame (requestMessage 1 (putCall 10 11)) with hframe
  have hrun₁ : (run (Stream.step rpcCodec .single)
      (.init 1 2 (some testServices) (some testServices))
      [(.left, .callMethod (putCall 10 11))]).map (fun s => (s.right.readBuf, s.toRight)) =
        some ([], frame) := by decide +kernel
  have hrun₂ : (run (Stream.step rpcCodec .single)
      (.init 1 2 (some testServices) (some testServices))
      [(.left, .callMethod (putCall 10 11)), (.right, .arrive 5 [])]).map
        (fun s => (s.right.readBuf, s.toRight)) = some (frame.take 5, frame.drop 5) := by
    decide +kernel
  intro before a after s t has hrun _
  match before, has with
  | [], has =>
    obtain ⟨rfl, -⟩ := List.cons.inj has
    trivial
  | [_], has =>
    simp only [putCallActions, List.cons_append, List.nil_append, List.cons.injEq] at has
    obtain ⟨rfl, rfl, -⟩ := has
    rw [hrun, Option.map_some, Option.some.injEq, Prod.mk.injEq] at hrun₁
    refine ⟨[], frame.take 5, ?_, by simp, by decide +kernel, ?_⟩
    · simp [swap, hrun₁.1, hrun₁.2, Codec.wireFrames]
    · simp only [swap, hrun₁.1, hrun₁.2]
      decide +kernel
  | [_, _], has =>
    simp only [putCallActions, List.cons_append, List.nil_append, List.cons.injEq] at has
    obtain ⟨rfl, rfl, rfl, -⟩ := has
    rw [hrun, Option.map_some, Option.some.injEq, Prod.mk.injEq] at hrun₂
    refine ⟨[requestMessage 1 (putCall 10 11)], [], ?_, ?_, by decide +kernel, ?_⟩
    · simp only [swap, hrun₂.1, hrun₂.2]
      decide +kernel
    · intro m hm
      obtain rfl := List.mem_singleton.mp hm
      decide +kernel
    · simp only [swap, hrun₂.1, hrun₂.2]
      decide +kernel
  | _ :: _ :: _ :: before, has => simp [putCallActions] at has

/-- The call is served, and both ends are those of a connection of messages. -/
theorem refines_duplex_putCall :
    ∃ s d, run (Stream.step rpcCodec .single) (.init 1 2 (some testServices) (some testServices))
        putCallActions = some s ∧
      Reachable Duplex.step (.init 1 2 (some testServices) (some testServices)) d ∧
      Refines rpcCodec s d ∧ d.right.closures.length = 1 ∧ Link.Agreement d.calls := by
  have hrun : (run (Stream.step rpcCodec .single)
      (.init 1 2 (some testServices) (some testServices))
      putCallActions).map (fun s => (s.left.node.sentLog, s.right.node.sentLog,
        s.right.node.closures.length, s.left.node.callCount)) =
        some ([requestMessage 1 (putCall 10 11)], [], 1, 1) := by decide +kernel
  obtain ⟨s, hs, hvalues⟩ := Option.map_eq_some_iff.mp hrun
  simp only [Prod.mk.injEq] at hvalues
  obtain ⟨hleft, hright, hclosures, hcount⟩ := hvalues
  have hfits : s.left.node.Fits rpcCodec := by
    rw [End.Fits, hleft]
    intro m hm
    obtain rfl := List.mem_singleton.mp hm
    decide +kernel
  have hfits' : s.right.node.Fits rpcCodec := by
    rw [End.Fits, hright]
    simp
  obtain ⟨d, hd, H, hagree, -⟩ := refines_duplex rpcCodec_lawful (by decide) .single 1 2
    (some testServices) (some testServices) hs harmless_putCallActions hfits hfits'
  exact ⟨s, d, hs, hd, H, by rw [H.right]; exact hclosures, hagree (by omega)⟩

end Stream

end MRpc
