import MRpc.Codec.Sending

/-!
# The limits of encoder and decoder

The decoder rejects a frame whose length field is above `maxMessageLen`. The encoder does not look
at this bound: `fillEmptyBuffer` computes the length from the sizes, narrows it to 32 bits and
returns `0` for every message that it can store. So it stays inside what the decoder accepts exactly
for the messages whose frame is within the bound.

## Main definitions

* `Codec.InLimits`: the length field of a frame is exact and admissible, and the decoder does not
  report it.

## Main results

* `Codec.onMessage_single`: the loop on a buffer that holds one complete frame makes one round.
* `Codec.inLimits_iff_le_maxMessageLen`: the frames that are inside the limits of the decoder.
-/

namespace MRpc

open FixedWidth WhileLoop

variable {σ Msg : Type}

namespace Codec

variable (c : Codec Msg)

/-- The length field of the frame `fr` of a message, read back with `asInt32`, is exact and between
`minMessageLen` and `maxMessageLen`, and `onMessage` does not report `invalidLength` on it. -/
def InLimits (m : Msg) (fr : Bytes) : Prop :=
  asInt32 fr = c.tag.length + (c.proto.serialize m).length + checksumLen ∧
    c.minMessageLen ≤ asInt32 fr ∧ asInt32 fr ≤ maxMessageLen ∧
    ∀ (σ : Type) (cb : Callbacks σ Msg) (env : σ) (s' : ReadState σ Msg),
      c.onMessage cb ⟨fr, env, []⟩ = some s' → .invalidLength ∉ errors s'.trace

variable {c}

/-! ### A buffer that holds one frame -/

section Single

variable {body : Bytes} (hlo : c.tag.length + 4 ≤ body.length) (hhi : body.length ≤ maxMessageLen)
  (cb : Callbacks σ Msg) (env : σ)

include hlo hhi in
/-- The round of the loop on a complete frame of admissible length: `rawCb` drops it, or the verdict
on its bytes decides. -/
theorem onMessageBody_single :
    ∃ env' raw,
      (cb.callRaw env body body.length = (false, env', raw) ∧
        c.onMessageBody cb (be32 body.length ++ body) env = ⟨[], env', raw, true⟩) ∨
      (cb.callRaw env body body.length = (true, env', raw) ∧
        ((∃ m, c.verdict body = (.noError, m) ∧
            c.onMessageBody cb (be32 body.length ++ body) env =
              ⟨[], cb.messageCallback env' body m,
                raw ++ [Event.parse body.length body.length, .messageCallback m], true⟩) ∨
          (∃ e m, e ≠ .noError ∧ c.verdict body = (e, m) ∧
            c.onMessageBody cb (be32 body.length ++ body) env =
              ⟨body, cb.errorCallback env' e,
                raw ++ [Event.parse body.length body.length, .errorCallback e], false⟩))) := by
  have hmax := hhi
  simp only [maxMessageLen] at hmax
  have hhead : asInt32 ((be32 body.length ++ body).take 4) = body.length := by
    rw [asInt32_take, asInt32, beNat_be32_append (by omega), int32_of_bounds (by omega) (by omega)]
  have hdrop : (be32 body.length ++ body).drop 4 = body ++ [] := (List.append_nil body).symm
  have hread : getReadBufferLen body = body.length := uint32_natCast_of_lt (by omega)
  have hframe := onMessageBody_frame (c := c) hhead hdrop hlo hhi
    (by rw [List.append_nil, hread]) cb env
  simpa only [List.append_nil] using hframe

include hlo hhi in
/-- The loop on a buffer that holds one complete frame of admissible length makes one round. -/
theorem onMessage_single (tr : List (Event Msg)) :
    c.onMessage cb ⟨be32 body.length ++ body, env, tr⟩ =
      some ⟨(c.onMessageBody cb (be32 body.length ++ body) env).readBuf,
        (c.onMessageBody cb (be32 body.length ++ body) env).env,
        tr ++ (c.onMessageBody cb (be32 body.length ++ body) env).events⟩ := by
  have hmax := hhi
  simp only [maxMessageLen] at hmax
  have hguard : c.minFrameLen ≤ getReadBufferLen (be32 body.length ++ body) := by
    rw [minFrameLen_of_lt (by omega), getReadBufferLen, List.length_append, length_be32,
      uint32_natCast_of_lt (by omega)]
    omega
  -- A round that is followed by another one has drained the whole frame.
  have hempty : ([] : Bytes).length < c.minFrameLen := by
    rw [minFrameLen_of_lt (by omega), List.length_nil]
    omega
  have hagain : ∀ {env' : σ} {events : List (Event Msg)},
      c.onMessageBody cb (be32 body.length ++ body) env = ⟨[], env', events, true⟩ →
        c.onMessage cb ⟨be32 body.length ++ body, env, tr⟩ = some ⟨[], env', tr ++ events⟩ := by
    intro env' events hb
    have hround : c.onMessageRound cb ⟨be32 body.length ++ body, env, tr⟩ =
        .again ⟨[], env', tr ++ events⟩ := by
      simp only [onMessageRound, hguard, ↓reduceIte, hb]
    rw [onMessage_again hround, onMessage_of_lt cb hempty]
  rcases onMessageBody_single hlo hhi cb env with ⟨env', raw, ⟨-, hb⟩ | ⟨-, ⟨m, -, hb⟩ |
    ⟨e, m, -, -, hb⟩⟩⟩
  · rw [hagain hb, hb]
  · rw [hagain hb, hb]
  · refine onMessage_done ?_
    simp [onMessageRound, hguard, hb]

end Single

/-! ### Frames by their length -/

/-- A frame that is no longer than the decoder admits has the documented format. -/
theorem IsFrame.eq_wireFrame_of_length {m : Msg} {fr : Bytes} (h : c.IsFrame m fr)
    (hlen : fr.length ≤ headerLen + maxMessageLen) :
    fr = be32 (c.wireBody m).length ++ c.wireBody m ∧ (c.wireBody m).length ≤ maxMessageLen := by
  simp only [headerLen, maxMessageLen] at hlen
  have hsmall : fr.length < 4294967296 := by omega
  refine h.eq_wireFrame ?_ hsmall
  rw [h.length_eq] at hlen
  rw [h.beNat_eq hsmall, maxMessageLen]
  omega

/-- The verdict on a frame is never `invalidLength`. -/
theorem verdict_ne_invalidLength (body : Bytes) : (c.verdict body).1 ≠ .invalidLength := by
  rw [verdict]
  split_ifs <;> simp

theorem errors_callRaw {cb : Callbacks σ Msg} {env env' : σ} {buf : Bytes} {len : Int} {b : Bool}
    {raw : List (Event Msg)} (h : cb.callRaw env buf len = (b, env', raw)) : errors raw = [] := by
  rcases callRaw_eq h with rfl | rfl <;> rfl

/-- On a buffer that holds one frame of admissible length the decoder does not report
`invalidLength`. -/
theorem not_mem_errors_single {body : Bytes} (hlo : c.tag.length + 4 ≤ body.length)
    (hhi : body.length ≤ maxMessageLen) {cb : Callbacks σ Msg} {env : σ} {s' : ReadState σ Msg}
    (h : c.onMessage cb ⟨be32 body.length ++ body, env, []⟩ = some s') :
    .invalidLength ∉ errors s'.trace := by
  rw [onMessage_single hlo hhi cb env []] at h
  have htr := congrArg ReadState.trace (Option.some.inj h)
  rw [← htr, List.nil_append]
  rcases onMessageBody_single hlo hhi cb env with ⟨env', raw, ⟨hraw, hb⟩ | ⟨hraw, ⟨m, -, hb⟩ |
    ⟨e, m, -, hv, hb⟩⟩⟩
  · rw [hb, errors_callRaw hraw]
    exact List.not_mem_nil
  · rw [hb, errors_append, errors_callRaw hraw]
    exact List.not_mem_nil
  · have he : e ≠ .invalidLength := by
      have hne := verdict_ne_invalidLength (c := c) body
      rwa [hv] at hne
    rw [hb, errors_append, errors_callRaw hraw]
    exact fun hmem => he (List.mem_singleton.mp hmem).symm

/-! ### The limits -/

/-- `fillEmptyBuffer` returns `0` only with the whole frame in the buffer. -/
theorem isFrame_of_fillEmptyBuffer {L : ChainLayout} {ok : EvResults} {m : Msg} {fr : Bytes}
    (h : c.fillEmptyBuffer L ok [] m = some (0, fr)) : c.IsFrame m fr := by
  rcases fillEmptyBuffer_cases (c := c) ⟨L, ok, m⟩ with ⟨-, hfill⟩ | ⟨-, hfill | ⟨-, hfill⟩ |
    ⟨-, -, hfill⟩ | ⟨-, -, fr', hfr, hfill⟩⟩ <;>
    rw [h] at hfill
  case inr.inr.inr.inr =>
    obtain ⟨-, rfl⟩ := Prod.mk.inj (Option.some.inj hfill)
    exact hfr
  all_goals simp at hfill

/-- **The encoder is inside the limits of the decoder up to `maxMessageLen`.** When
`fillEmptyBuffer` returns `0`, the length field that it wrote is exact and admissible, and the
decoder does not report it, exactly when tag, payload and checksum together are at most
`maxMessageLen` bytes. -/
theorem inLimits_iff_le_maxMessageLen {L : ChainLayout} {ok : EvResults} {m : Msg} {fr : Bytes}
    (h : c.fillEmptyBuffer L ok [] m = some (0, fr)) :
    c.InLimits m fr ↔
      c.tag.length + (c.proto.serialize m).length + checksumLen ≤ maxMessageLen := by
  have hframe := isFrame_of_fillEmptyBuffer h
  simp only [checksumLen, maxMessageLen, InLimits]
  constructor
  · rintro ⟨hexact, -, hmax, -⟩
    omega
  · intro hle
    obtain ⟨rfl, hbody⟩ := hframe.eq_wireFrame_of_length (by
      rw [hframe.length_eq]
      simp only [maxMessageLen, headerLen]
      omega)
    have hL := length_wireBody (c := c) m
    have hlo : c.tag.length + 4 ≤ (c.wireBody m).length := by omega
    have hfield : asInt32 (be32 (c.wireBody m).length ++ c.wireBody m) = (c.wireBody m).length := by
      rw [asInt32, beNat_be32_append (by omega), int32_of_bounds (by omega) (by omega)]
    have hmin : c.minMessageLen = c.tag.length + 4 := minMessageLen_of_lt (by omega)
    rw [hfield, hmin]
    exact ⟨by omega, by omega, by omega, fun _ _ _ _ => not_mem_errors_single hlo hbody⟩

end Codec

/-- A request with the given body and no other field. -/
def bareRequest (body : Bytes) : RpcMessage := { RpcMessage.empty with request? := some body }

theorem length_serialize_bareRequest (body : Bytes) :
    (rpcCodec.proto.serialize (bareRequest body)).length =
      1 + (Varint.size32 (uint32 body.length) + body.length) := by
  have hserialize : rpcCodec.proto.serialize (bareRequest body) =
      PlainStream.writeText 5 body ++ [] := rfl
  rw [hserialize, List.append_nil, PlainStream.writeText, List.length_cons, List.length_append,
    Varint.length_encode, Nat.add_comm]

theorem inLimits_putRequest : ∃ fr, rpcCodec.fillEmptyBuffer .single .allOk [] putRequest =
    some (0, fr) ∧ rpcCodec.InLimits putRequest fr := by
  have hfill := Codec.isFrame_wireFrame (m := putRequest) rpcCodec_lawful
    (by decide +kernel : (rpcCodec.wireBody putRequest).length ≤ maxMessageLen) .single
  exact ⟨_, hfill, (Codec.inLimits_iff_le_maxMessageLen hfill).mpr (by decide +kernel)⟩

/-- A body of 64 MiB is encoded without an error, and its frame is outside the limits. -/
theorem not_inLimits_bareRequest :
    ∃ fr, rpcCodec.fillEmptyBuffer .single .allOk [] (bareRequest (List.replicate 67108864 0)) =
        some (0, fr) ∧
      ¬ rpcCodec.InLimits (bareRequest (List.replicate 67108864 0)) fr := by
  have hbody : (List.replicate 67108864 0 : Bytes).length = 67108864 := List.length_replicate
  generalize (List.replicate 67108864 0 : Bytes) = body at hbody ⊢
  have hlen : (rpcCodec.proto.serialize (bareRequest body)).length = 67108869 := by
    refine (length_serialize_bareRequest body).trans ?_
    rw [hbody, uint32_natCast_of_lt (by decide)]
    decide
  have hsize : rpcCodec.proto.byteSize (bareRequest body) =
      (rpcCodec.proto.serialize (bareRequest body)).length :=
    rpcCodec_lawful.byteSize_eq _ (hlen.trans_lt (by decide))
  have hfill := Codec.fillEmptyBuffer_allOk (c := rpcCodec) .single (bareRequest body)
  rw [hsize, hlen, uint32_natCast_of_lt (by decide), if_neg (by decide)] at hfill
  refine ⟨_, hfill, fun H => ?_⟩
  obtain ⟨hexact, -, hmax, -⟩ := H
  rw [hlen] at hexact
  simp only [checksumLen, maxMessageLen] at hexact hmax
  omega

end MRpc
