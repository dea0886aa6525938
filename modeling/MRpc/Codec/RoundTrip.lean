import MRpc.Codec.Encode
import MRpc.Codec.Decode
import MRpc.Message.Wire

/-!
# Decoding undoes encoding

A read buffer that holds the frames of a list of messages, followed by fewer bytes than a frame
has at least, is decoded into these messages: those that `rawCb` lets pass are handed to
`messageCallback`, each once and in order, and the bytes after the last frame stay in the buffer.

## Main definitions

* `messages`, `rawResults`, `errors`: what a list of events says of each callback.
* `Codec.deliverFrame`, `Codec.deliverFrames`: what the callbacks are to do with one frame and with
  a list of frames.

## Main results

* `Codec.onMessageBody_wireFrame`: the round of the loop on one frame.
* `Codec.onMessage_wireFrames`: the loop on a list of frames.
* `Codec.onMessage_frames`: decoding undoes encoding.
-/

namespace MRpc

open FixedWidth WhileLoop

variable {σ Msg : Type}

/-! ### Reading a trace -/

/-- The messages handed to `messageCallback`. -/
def messages (tr : List (Event Msg)) : List Msg :=
  tr.filterMap fun
    | .messageCallback m => some m
    | _ => none

/-- The values that `rawCb` returned. -/
def rawResults (tr : List (Event Msg)) : List Bool :=
  tr.filterMap fun
    | .rawCb _ accepted => some accepted
    | _ => none

/-- The codes handed to the error callback. -/
def errors (tr : List (Event Msg)) : List ErrorCode :=
  tr.filterMap fun
    | .errorCallback code => some code
    | _ => none

/-- Whether memory outside its block was read. -/
def overreads (tr : List (Event Msg)) : Bool :=
  tr.any fun
    | .outOfBounds => true
    | _ => false

@[simp] theorem messages_append (a b : List (Event Msg)) :
    messages (a ++ b) = messages a ++ messages b := List.filterMap_append

@[simp] theorem rawResults_append (a b : List (Event Msg)) :
    rawResults (a ++ b) = rawResults a ++ rawResults b := List.filterMap_append

@[simp] theorem errors_append (a b : List (Event Msg)) :
    errors (a ++ b) = errors a ++ errors b := List.filterMap_append

@[simp] theorem overreads_append (a b : List (Event Msg)) :
    overreads (a ++ b) = (overreads a || overreads b) := List.any_append

theorem overreads_eq_true {tr : List (Event Msg)} : overreads tr = true ↔ .outOfBounds ∈ tr := by
  simp only [overreads, List.any_eq_true]
  constructor
  · rintro ⟨e, he, h⟩
    cases e <;> simp_all
  · exact fun h => ⟨_, h, rfl⟩

theorem mem_messages {tr : List (Event Msg)} {m : Msg} :
    m ∈ messages tr ↔ .messageCallback m ∈ tr := by
  simp only [messages, List.mem_filterMap]
  constructor
  · rintro ⟨e, he, hm⟩
    cases e <;> simp_all
  · exact fun h => ⟨_, h, rfl⟩

namespace Codec

variable (c : Codec Msg) (cb : Callbacks σ Msg)

/-! ### What is to happen -/

/-- One frame: the state of the callbacks and their calls. `rest` is what follows the frame. -/
def deliverFrame (m : Msg) (rest : Bytes) (env : σ) : σ × List (Event Msg) :=
  let buf := c.wireBody m ++ rest
  let len : Int := (c.wireBody m).length
  match cb.callRaw env buf len with
  | (false, env, raw) => (env, raw)
  | (true, env, raw) =>
    (cb.messageCallback env buf m, raw ++ [.parse len buf.length, .messageCallback m])

/-- The frames of a list of messages. -/
def wireFrames (ms : List Msg) : Bytes := (ms.map c.wireFrame).flatten

/-- A list of frames: the state of the callbacks and their calls. -/
def deliverFrames (f : Bytes) : List Msg → σ → σ × List (Event Msg)
  | [], env => (env, [])
  | m :: ms, env =>
    let r := c.deliverFrame cb m (c.wireFrames ms ++ f) env
    let t := deliverFrames f ms r.1
    (t.1, r.2 ++ t.2)

variable {c}

theorem wireFrames_cons (m : Msg) (ms : List Msg) :
    c.wireFrames (m :: ms) = c.wireFrame m ++ c.wireFrames ms := rfl

theorem wireFrames_append (ms ms' : List Msg) :
    c.wireFrames (ms ++ ms') = c.wireFrames ms ++ c.wireFrames ms' := by
  simp only [wireFrames, List.map_append, List.flatten_append]

/-! ### The loop on frames -/

theorem verdict_wireBody (hP : c.proto.Lawful) {m : Msg}
    (hlen : (c.wireBody m).length ≤ maxMessageLen) : c.verdict (c.wireBody m) = (.noError, m) := by
  have hcut : (c.wireBody m).length - 4 = (c.tag ++ c.proto.serialize m).length := by
    rw [length_wireBody, List.length_append]
    omega
  have hsum : ChecksumOk (c.wireBody m) := by
    rw [ChecksumOk, hcut, wireBody, List.take_left, List.drop_left,
      beNat_be32 (Adler.adler32_lt _ _)]
  have htag : (c.wireBody m).take c.tag.length = c.tag := by
    rw [wireBody, List.append_assoc, List.take_left]
  have hpay : c.payload (c.wireBody m) = c.proto.serialize m := by
    rw [payload, hcut, wireBody, List.take_left, List.drop_left]
  have hsmall : (c.proto.serialize m).length < maxMessageLen := by
    rw [length_wireBody] at hlen
    omega
  rw [verdict, if_pos hsum, if_pos htag, hpay, hP.parse_serialize m hsmall]

/-- The round of the loop on a buffer that starts with a frame. -/
theorem onMessageBody_wireFrame (hP : c.proto.Lawful) {m : Msg} {rest : Bytes} (env : σ)
    (hlen : (c.wireBody m).length ≤ maxMessageLen)
    (hbuf : (c.wireFrame m ++ rest).length < 4294967296) :
    c.onMessageBody cb (c.wireFrame m ++ rest) env =
      ⟨rest, (c.deliverFrame cb m rest env).1, (c.deliverFrame cb m rest env).2, true⟩ := by
  have hL := length_wireBody (c := c) m
  rw [List.length_append, length_wireFrame] at hbuf
  have hsmall : (c.wireBody m).length < 2147483648 := by
    simp only [maxMessageLen] at hlen
    omega
  have hhead : asInt32 ((c.wireFrame m ++ rest).take 4) = (c.wireBody m).length := by
    rw [asInt32_take, wireFrame, List.append_assoc, asInt32, beNat_be32_append (by omega),
      int32_of_bounds (by omega) (by omega)]
  have hdrop : (c.wireFrame m ++ rest).drop 4 = c.wireBody m ++ rest := by
    rw [wireFrame, List.append_assoc]
    rfl
  have hread : getReadBufferLen (c.wireBody m ++ rest) = (c.wireBody m ++ rest).length :=
    uint32_natCast_of_lt (by rw [List.length_append]; omega)
  have hfits : (c.wireBody m).length ≤ getReadBufferLen (c.wireBody m ++ rest) := by
    rw [hread, List.length_append]
    omega
  have hv := verdict_wireBody hP hlen
  obtain ⟨env', raw, ⟨hraw, hb⟩ | ⟨hraw, ⟨m', hv', hb⟩ | ⟨e, m', he, hv', -⟩⟩⟩ :=
    onMessageBody_frame (c := c) hhead hdrop (by omega) hlen hfits cb env
  · rw [hb]
    simp only [deliverFrame, hraw]
  · obtain ⟨-, rfl⟩ := Prod.mk.inj (hv.symm.trans hv')
    rw [hb]
    simp only [deliverFrame, hraw]
  · obtain ⟨rfl, -⟩ := Prod.mk.inj (hv.symm.trans hv')
    exact absurd rfl he

/-- The loop works through the frames at the front of the buffer. -/
theorem onMessage_wireFrames_append (hP : c.proto.Lawful) {ms : List Msg} {f : Bytes} (env : σ)
    (tr : List (Event Msg)) (hlen : ∀ m ∈ ms, (c.wireBody m).length ≤ maxMessageLen)
    (hbuf : (c.wireFrames ms ++ f).length < 4294967296) :
    c.onMessage cb ⟨c.wireFrames ms ++ f, env, tr⟩ =
      c.onMessage cb
        ⟨f, (c.deliverFrames cb f ms env).1, tr ++ (c.deliverFrames cb f ms env).2⟩ := by
  induction ms generalizing env tr with
  | nil => simp only [wireFrames, List.map_nil, List.flatten_nil, List.nil_append, deliverFrames,
      List.append_nil]
  | cons m ms ih =>
    have hm : (c.wireBody m).length ≤ maxMessageLen := hlen m List.mem_cons_self
    rw [wireFrames_cons, List.append_assoc] at hbuf ⊢
    have hbody := onMessageBody_wireFrame cb hP env hm hbuf
    have hguard : c.minFrameLen ≤
        getReadBufferLen (c.wireFrame m ++ (c.wireFrames ms ++ f)) := by
      rw [getReadBufferLen, uint32_natCast_of_lt hbuf]
      rw [List.length_append, length_wireFrame] at hbuf ⊢
      rw [minFrameLen_of_lt (by omega)]
      omega
    have hround : c.onMessageRound cb ⟨c.wireFrame m ++ (c.wireFrames ms ++ f), env, tr⟩ =
        .again ⟨c.wireFrames ms ++ f, (c.deliverFrame cb m (c.wireFrames ms ++ f) env).1,
          tr ++ (c.deliverFrame cb m (c.wireFrames ms ++ f) env).2⟩ := by
      simp only [onMessageRound, hguard, ↓reduceIte, hbody]
    rw [List.length_append] at hbuf
    rw [onMessage_again hround, ih _ _ (fun m' hm' => hlen m' (List.mem_cons_of_mem m hm'))
      (by omega)]
    simp only [deliverFrames, List.append_assoc]

/-- Fewer bytes than a frame has at least are left alone. -/
theorem onMessage_of_lt {f : Bytes} (hf : f.length < c.minFrameLen) (env : σ)
    (tr : List (Event Msg)) : c.onMessage cb ⟨f, env, tr⟩ = some ⟨f, env, tr⟩ := by
  have hlt : f.length < 4294967296 := hf.trans (uint32_lt _)
  have hguard : ¬ c.minFrameLen ≤ getReadBufferLen f := by
    rw [getReadBufferLen, uint32_natCast_of_lt hlt]
    omega
  refine onMessage_done ?_
  simp only [onMessageRound, hguard, ↓reduceIte]

/-- The loop on frames followed by fewer bytes than a frame has at least. -/
theorem onMessage_wireFrames (hP : c.proto.Lawful) {ms : List Msg} {f : Bytes} (env : σ)
    (tr : List (Event Msg)) (hlen : ∀ m ∈ ms, (c.wireBody m).length ≤ maxMessageLen)
    (hf : f.length < c.minFrameLen) (hbuf : (c.wireFrames ms ++ f).length < 4294967296) :
    c.onMessage cb ⟨c.wireFrames ms ++ f, env, tr⟩ =
      some ⟨f, (c.deliverFrames cb f ms env).1, tr ++ (c.deliverFrames cb f ms env).2⟩ := by
  rw [onMessage_wireFrames_append cb hP env tr hlen hbuf, onMessage_of_lt cb hf]

/-! ### What the callbacks saw -/

theorem errors_deliverFrame (m : Msg) (rest : Bytes) (env : σ) :
    errors (c.deliverFrame cb m rest env).2 = [] := by
  rcases hcb : cb.rawCb with _ | raw
  · simp [deliverFrame, Callbacks.callRaw, hcb, errors]
  · simp only [deliverFrame, Callbacks.callRaw, hcb]
    rcases raw env (c.wireBody m ++ rest) (c.wireBody m).length with ⟨_ | _, env'⟩ <;>
      simp [errors]

theorem errors_deliverFrames (f : Bytes) (ms : List Msg) (env : σ) :
    errors (c.deliverFrames cb f ms env).2 = [] := by
  induction ms generalizing env with
  | nil => rfl
  | cons m ms ih => simp only [deliverFrames, errors_append, errors_deliverFrame, ih,
      List.append_nil]

theorem overreads_deliverFrame (m : Msg) (rest : Bytes) (env : σ) :
    overreads (c.deliverFrame cb m rest env).2 = false := by
  rcases hcb : cb.rawCb with _ | raw
  · simp [deliverFrame, Callbacks.callRaw, hcb, overreads]
  · simp only [deliverFrame, Callbacks.callRaw, hcb]
    rcases raw env (c.wireBody m ++ rest) (c.wireBody m).length with ⟨_ | _, env'⟩ <;>
      simp [overreads]

theorem overreads_deliverFrames (f : Bytes) (ms : List Msg) (env : σ) :
    overreads (c.deliverFrames cb f ms env).2 = false := by
  induction ms generalizing env with
  | nil => rfl
  | cons m ms ih => simp only [deliverFrames, overreads_append, overreads_deliverFrame, ih,
      Bool.or_false]

/-- Without `rawCb` every message is handed over. -/
theorem messages_deliverFrames_of_none (hcb : cb.rawCb = none) (f : Bytes) (ms : List Msg)
    (env : σ) : messages (c.deliverFrames cb f ms env).2 = ms := by
  induction ms generalizing env with
  | nil => rfl
  | cons m ms ih =>
    simp only [deliverFrames, messages_append, ih, deliverFrame, Callbacks.callRaw, hcb,
      List.nil_append]
    rfl

/-- With `rawCb`, the messages that it returned `true` for are handed over. -/
theorem messages_deliverFrames_of_some {raw : σ → Bytes → Int → Bool × σ}
    (hcb : cb.rawCb = some raw) (f : Bytes) (ms : List Msg) (env : σ) :
    (rawResults (c.deliverFrames cb f ms env).2).length = ms.length ∧
      messages (c.deliverFrames cb f ms env).2 =
        ((ms.zip (rawResults (c.deliverFrames cb f ms env).2)).filter (·.2)).map (·.1) := by
  induction ms generalizing env with
  | nil => exact ⟨rfl, rfl⟩
  | cons m ms ih =>
    obtain ⟨h1, h2⟩ := ih (c.deliverFrame cb m (c.wireFrames ms ++ f) env).1
    simp only [deliverFrames, rawResults_append, messages_append, h2]
    simp only [deliverFrame, Callbacks.callRaw, hcb] at h1 ⊢
    rcases hr : raw env (c.wireBody m ++ (c.wireFrames ms ++ f)) (c.wireBody m).length with
      ⟨_ | _, env'⟩ <;> rw [hr] at h1 <;>
      simp [rawResults, messages] at h1 ⊢ <;> exact h1

/-! ### Decoding undoes encoding -/

/-- Frames whose length field is at most `maxMessageLen` have the documented format. -/
theorem eq_map_wireFrame {ms : List Msg} {frs : List Bytes} (h : List.Forall₂ c.IsFrame ms frs)
    (hfield : ∀ fr ∈ frs, beNat fr ≤ maxMessageLen) (hlen : frs.flatten.length < 4294967296) :
    frs = ms.map c.wireFrame ∧ ∀ m ∈ ms, (c.wireBody m).length ≤ maxMessageLen := by
  induction h with
  | nil => exact ⟨rfl, by simp⟩
  | @cons m fr ms frs hm hms ih =>
    rw [List.flatten_cons, List.length_append] at hlen
    obtain ⟨hfr, hmlen⟩ := hm.eq_wireFrame (hfield fr List.mem_cons_self) (by omega)
    obtain ⟨hfrs, hmslen⟩ := ih (fun fr' h' => hfield fr' (List.mem_cons_of_mem fr h')) (by omega)
    refine ⟨by rw [List.map_cons, hfr, hfrs], ?_⟩
    rintro m' (_ | ⟨_, hm'⟩)
    · exact hmlen
    · exact hmslen m' hm'

/-- **Decoding undoes encoding.** On the frames that `fillEmptyBuffer` writes for a list of
messages, followed by fewer bytes than a frame has at least, `onMessage` ends, hands to
`messageCallback` the messages that `rawCb` lets pass, each once and in order, reports no error
and leaves the bytes after the last frame. -/
theorem onMessage_frames (hP : c.proto.Lawful) (cb : Callbacks σ Msg) (env : σ) {ms : List Msg}
    {frs : List Bytes} {f : Bytes} (hfrs : List.Forall₂ c.IsFrame ms frs)
    (hfield : ∀ fr ∈ frs, beNat fr ≤ maxMessageLen) (hf : f.length < c.minFrameLen)
    (hbuf : (frs.flatten ++ f).length < 4294967296) :
    ∃ s', c.onMessage cb ⟨frs.flatten ++ f, env, []⟩ = some s' ∧
      s'.readBuf = f ∧ errors s'.trace = [] ∧
      (cb.rawCb = none → messages s'.trace = ms) ∧
      (cb.rawCb ≠ none → (rawResults s'.trace).length = ms.length ∧
        messages s'.trace = ((ms.zip (rawResults s'.trace)).filter (·.2)).map (·.1)) := by
  have hsplit : frs.flatten.length < 4294967296 := by
    rw [List.length_append] at hbuf
    omega
  obtain ⟨rfl, hlen⟩ := eq_map_wireFrame hfrs hfield hsplit
  refine ⟨_, onMessage_wireFrames cb hP env [] hlen hf hbuf, rfl, ?_, fun hcb => ?_,
    fun hcb => ?_⟩
  · exact errors_deliverFrames cb f ms env
  · exact messages_deliverFrames_of_none cb hcb f ms env
  · obtain ⟨raw, hraw⟩ := Option.ne_none_iff_exists'.mp hcb
    exact messages_deliverFrames_of_some cb hraw f ms env

end Codec

/-- Callbacks without `rawCb` and without a state. -/
def plainCallbacks : Callbacks Unit RpcMessage := ⟨none, fun _ _ _ => (), fun _ _ => ()⟩

/-- A buffer in one chain. -/
def ChainLayout.single : ChainLayout := ⟨fun b => [b], fun b => by simp⟩

theorem isFrame_putRequest : rpcCodec.IsFrame putRequest (rpcCodec.wireFrame putRequest) :=
  ⟨.single, Codec.isFrame_wireFrame rpcCodec_lawful (by decide +kernel) _⟩

/-- Two requests and three bytes of a third frame. -/
theorem onMessage_frames_putRequest :
    ∃ s', rpcCodec.onMessage plainCallbacks ⟨[rpcCodec.wireFrame putRequest,
        rpcCodec.wireFrame putRequest].flatten ++ [0, 0, 0], (), []⟩ = some s' ∧
      s'.readBuf = [0, 0, 0] ∧ errors s'.trace = [] ∧
      messages s'.trace = [putRequest, putRequest] := by
  obtain ⟨s', h1, h2, h3, h4, -⟩ := Codec.onMessage_frames (f := [0, 0, 0])
    rpcCodec_lawful plainCallbacks ()
    (.cons isFrame_putRequest (.cons isFrame_putRequest .nil)) (by decide +kernel)
    (by decide +kernel) (by decide +kernel)
  exact ⟨s', h1, h2, h3, h4 rfl⟩

end MRpc
