import MRpc.Codec.Basic
import MRpc.Lib.WhileLoop

/-!
# Reading frames

`parse` and `onMessage` of `src/codeClite.cpp`. The loop of `onMessage` runs on the read buffer of a
connection; its callbacks see the buffer and act on a state of their own, and every call the loop
makes is recorded as an event. Memory that is read outside its block is an event too
(`Event.outOfBounds`), after which the model stops.

The header is taken out of the buffer before the loop knows whether the rest of the frame is there
(`readBuffer`, not `copyBuffer`), and the length is compared with its bounds in mixed signedness;
both are kept as they are.

## Main definitions

* `Codec.parse`: the verdict on a frame.
* `Codec.onMessageBody`, `Codec.onMessageRound`, `Codec.onMessage`: one round of the loop on a
  buffer, the same on a `ReadState`, and the loop.
* `Codec.verdict`: the verdict on a frame that is completely there, as a function of its bytes.

## Main results

* `Codec.parse_append`, `Codec.parse_eq_noError`: what `parse` does on a complete frame, and when
  it reports no error.
* `Codec.onMessageBody_frame`: the round of the loop on a complete frame.
* `Codec.onMessage_isSome`: the loop ends on every buffer.
* `Codec.mem_trace_onMessage`: every event of the loop belongs to one of its rounds.
* `Codec.onMessage_errorCallback`: the loop reports at most one error, and that comes last.
-/

namespace MRpc

open FixedWidth WhileLoop

/-! ### Connections and callbacks -/

/-- `Conn::getReadBufferLen`, a `uint32_t`. -/
def getReadBufferLen (buf : Bytes) : Nat := uint32 buf.length

/-- `evbuffer_drain` with the length of a frame, converted to `size_t`. -/
def evbufferDrain (buf : Bytes) (len : Int) : Bytes := buf.drop (uint64 len)

/-- `evbuffer_pullup`: the memory of the first `len` bytes, of all bytes for a negative `len`;
`none` is `NULL`. -/
def evbufferPullup (buf : Bytes) (len : Int) : Option Bytes :=
  let size := if len < 0 then buf.length else len.toNat
  if size = 0 ∨ buf.length < size then none else some (buf.take size)

/-- What one call of `onMessage` does to the outside. -/
inductive Event (Msg : Type)
  | rawCb (len : Int) (accepted : Bool)
  | parse (len : Int) (readable : Nat)
  | messageCallback (m : Msg)
  | errorCallback (code : ErrorCode)
  | outOfBounds
  deriving DecidableEq

/-- The callbacks of a codec, on a state `σ` of their own. They may look at the read buffer and do
not change it. -/
structure Callbacks (σ Msg : Type) where
  rawCb : Option (σ → Bytes → Int → Bool × σ)
  messageCallback : σ → Bytes → Msg → σ
  errorCallback : σ → ErrorCode → σ

variable {σ Msg : Type}

/-- `rawCb && !rawCb(conn, len)`, negated: whether the frame is passed on, the state of the
callbacks and the call that was made. -/
def Callbacks.callRaw (cb : Callbacks σ Msg) (env : σ) (buf : Bytes) (len : Int) :
    Bool × σ × List (Event Msg) :=
  match cb.rawCb with
  | none => (true, env, [])
  | some f => ((f env buf len).1, (f env buf len).2, [.rawCb len (f env buf len).1])

/-- The state of the loop in `onMessage`. -/
structure ReadState (σ Msg : Type) where
  readBuf : Bytes
  env : σ
  trace : List (Event Msg)

/-- What one round of the loop leaves behind, and whether the loop goes on. -/
structure Iteration (σ Msg : Type) where
  readBuf : Bytes
  env : σ
  events : List (Event Msg)
  again : Bool

namespace Codec

variable (c : Codec Msg)

/-! ### The verdict on a frame -/

/-- `dataLen` in `parse`, the length of the payload of a frame. -/
def dataLen (len : Int) : Int := int32 (len - checksumLen - int32 c.tag.length)

/-- `ProtobufCodecLite::parse`: the error code and the message, `none` when memory outside the
buffer is read. A payload that does not parse leaves `error` at its initial value. -/
def parse (readBuf : Bytes) (len : Int) : Option (ErrorCode × Msg) := do
  let error := ErrorCode.noError
  let data ← evbufferPullup readBuf len
  if ← validateChecksum data len then
    let head ← memRead data 0 c.tag.length
    if head = c.tag then
      let payload ← memRead data c.tag.length (c.dataLen len)
      let (parsed, message) := c.proto.parseFromArray payload
      return (if parsed then .noError else error, message)
    else return (.parseError, c.proto.new)
  else return (.unknownMessageType, c.proto.new)

/-- The bytes of a frame after its length field end in the checksum of those before. -/
def ChecksumOk (body : Bytes) : Prop :=
  Adler.adler32 Adler.init (body.take (body.length - 4)) = beNat (body.drop (body.length - 4))

instance (body : Bytes) : Decidable (ChecksumOk body) := inferInstanceAs (Decidable (_ = _))

/-- The payload of a frame, between tag and checksum. -/
def payload (body : Bytes) : Bytes := (body.take (body.length - 4)).drop c.tag.length

/-- The verdict of `parse` as a function of the bytes of a complete frame. -/
def verdict (body : Bytes) : ErrorCode × Msg :=
  if ChecksumOk body then
    if body.take c.tag.length = c.tag then (.noError, (c.proto.parseFromArray (c.payload body)).2)
    else (.parseError, c.proto.new)
  else (.unknownMessageType, c.proto.new)

/-! ### The loop -/

/-- The body of the loop in `ProtobufCodecLite::onMessage`. -/
def onMessageBody (cb : Callbacks σ Msg) (readBuf : Bytes) (env : σ) : Iteration σ Msg :=
  let len := asInt32 (readBuf.take headerLen)
  let buf := readBuf.drop headerLen
  if len > maxMessageLen ∨ uint32 len < c.minMessageLen then
    { readBuf := buf, env := cb.errorCallback env .invalidLength
      events := [.errorCallback .invalidLength], again := false }
  else if uint32 len ≤ getReadBufferLen buf then
    match cb.callRaw env buf len with
    | (false, env, raw) =>
      { readBuf := evbufferDrain buf len, env := env, events := raw, again := true }
    | (true, env, raw) =>
      match c.parse buf len with
      | none =>
        { readBuf := buf, env := env, events := raw ++ [.parse len buf.length, .outOfBounds]
          again := false }
      | some (.noError, message) =>
        { readBuf := evbufferDrain buf len, env := cb.messageCallback env buf message
          events := raw ++ [.parse len buf.length, .messageCallback message], again := true }
      | some (errorCode, _) =>
        { readBuf := buf, env := cb.errorCallback env errorCode
          events := raw ++ [.parse len buf.length, .errorCallback errorCode], again := false }
  else { readBuf := buf, env := env, events := [], again := false }

/-- One round of the loop, with its condition. -/
def onMessageRound (cb : Callbacks σ Msg) (s : ReadState σ Msg) : Round (ReadState σ Msg) :=
  if c.minFrameLen ≤ getReadBufferLen s.readBuf then
    let it := c.onMessageBody cb s.readBuf s.env
    let s' := { readBuf := it.readBuf, env := it.env, trace := s.trace ++ it.events }
    if it.again then .again s' else .done s'
  else .done s

/-- `ProtobufCodecLite::onMessage`. Every further round has taken a header out of the buffer, so
the length of the buffer bounds their number (`onMessage_isSome`). -/
def onMessage (cb : Callbacks σ Msg) (s : ReadState σ Msg) : Option (ReadState σ Msg) :=
  WhileLoop.eval (c.onMessageRound cb) (fun s => s.readBuf.length) s

/-- A state at the head of the loop of a call on `s` from which a round is made. -/
def Visits (cb : Callbacks σ Msg) (s h : ReadState σ Msg) : Prop :=
  Reaches (c.onMessageRound cb) s h ∧ c.minFrameLen ≤ getReadBufferLen h.readBuf

variable {c}

/-! ### The verdict on a complete frame -/

theorem evbufferPullup_append {body : Bytes} (h : 0 < body.length) (rest : Bytes) :
    evbufferPullup (body ++ rest) body.length = some body := by
  have hsize : ¬ ((body.length : Int) < 0) := by omega
  have hfits : ¬ (body.length = 0 ∨ (body ++ rest).length < body.length) := by
    simp only [List.length_append]
    omega
  simp only [evbufferPullup, hsize, ↓reduceIte, Int.toNat_natCast, hfits, List.take_left]

theorem validateChecksum_eq {body : Bytes} (h : 4 ≤ body.length) :
    validateChecksum body body.length = some (decide (ChecksumOk body)) := by
  obtain ⟨d, sum, rfl, hsum⟩ : ∃ d sum, body = d ++ sum ∧ sum.length = 4 :=
    ⟨body.take (body.length - 4), body.drop (body.length - 4), (List.take_append_drop _ _).symm,
      by rw [List.length_drop]; omega⟩
  have hv := validateChecksum_append d sum [] hsum
  have hcut : (d ++ sum).length - 4 = d.length := by rw [List.length_append, hsum]; omega
  rw [List.append_nil, ← hsum, ← List.length_append] at hv
  rw [hv, Option.some.injEq, Bool.eq_iff_iff, beq_iff_eq, decide_eq_true_iff, ChecksumOk, hcut,
    List.take_left, List.drop_left, asInt32, int32_eq_iff,
    uint32_natCast_of_lt (Adler.adler32_lt _ _), uint32_natCast_of_lt (beNat_lt _)]

theorem dataLen_eq {len : Int} (hlo : c.tag.length ≤ len) (hhi : len < 2147483648) :
    c.dataLen len = len - c.tag.length - 4 := by
  simp only [dataLen, checksumLen]
  rw [int32_of_bounds (z := c.tag.length) (by omega) (by omega),
    int32_of_bounds (by omega) (by omega)]
  omega

/-- On a complete frame of admissible length `parse` gives the verdict on its bytes. -/
theorem parse_append (body : Bytes) (hlo : c.tag.length + 4 ≤ body.length)
    (hhi : body.length < 2147483648) (rest : Bytes) :
    c.parse (body ++ rest) body.length = some (c.verdict body) := by
  have htag : memRead body 0 c.tag.length = some (body.take c.tag.length) := by
    rw [memRead, if_pos (by omega)]
    rfl
  have hlen := dataLen_eq (c := c) (show (c.tag.length : Int) ≤ body.length by omega) (by omega)
  have hnat : (body.length - c.tag.length - 4 : Int) = (body.length - 4 - c.tag.length : Nat) := by
    omega
  rw [hnat] at hlen
  have hpay : memRead body c.tag.length (body.length - 4 - c.tag.length : Nat) =
      some (c.payload body) := by
    rw [memRead, if_pos (by omega), Int.toNat_natCast, Int.toNat_natCast, payload,
      List.drop_take]
  have hpull := evbufferPullup_append (show 0 < body.length by omega) rest
  have hchecksum := validateChecksum_eq (show 4 ≤ body.length by omega)
  by_cases hsum : ChecksumOk body
  · by_cases hhead : body.take c.tag.length = c.tag
    · simp [parse, hpull, hchecksum, htag, hlen, hpay, verdict, hsum, hhead]
    · simp [parse, hpull, hchecksum, htag, verdict, hsum, hhead]
  · simp [parse, hpull, hchecksum, verdict, hsum]

theorem bounds_of_memRead {buf b : Bytes} {off n : Int} (h : memRead buf off n = some b) :
    0 ≤ off ∧ 0 ≤ n ∧ off + n ≤ buf.length := by
  rw [memRead] at h
  split_ifs at h with hb
  exact hb

/-- `parse` reports no error only on a complete frame. -/
theorem parse_eq_noError {buf : Bytes} {len : Int} {m : Msg} (hlen : len < 2147483648)
    (h : c.parse buf len = some (.noError, m)) :
    ∃ body rest, buf = body ++ rest ∧ len = body.length ∧ c.tag.length + 4 ≤ body.length ∧
      c.verdict body = (.noError, m) := by
  have hparse := h
  simp only [parse, Option.bind_eq_bind, Option.bind_eq_some_iff] at h
  obtain ⟨data, hdata, ok, hok, h⟩ := h
  -- The checksum was read inside the memory, so the length is not negative.
  have hlo : 0 ≤ len - checksumLen ∧ len ≤ data.length := by
    simp only [validateChecksum, Option.bind_eq_bind, Option.bind_eq_some_iff] at hok
    obtain ⟨sum, hsum, -⟩ := hok
    have hb := bounds_of_memRead hsum
    omega
  simp only [checksumLen] at hlo
  have hnneg : ¬ len < 0 := by omega
  simp only [evbufferPullup, hnneg, ↓reduceIte] at hdata
  split_ifs at hdata with hfit
  obtain rfl := Option.some.inj hdata
  have htag : c.tag.length + 4 ≤ len := by
    split_ifs at h with h1
    · simp only [Option.bind_eq_some_iff] at h
      obtain ⟨head, hhead, h⟩ := h
      have hb := bounds_of_memRead hhead
      rw [List.length_take] at hb
      split_ifs at h with h2
      · simp only [Option.bind_eq_some_iff] at h
        obtain ⟨pay, hpay, -⟩ := h
        have hb' := bounds_of_memRead hpay
        rw [dataLen_eq (by omega) hlen] at hb'
        omega
      · simp at h
    · simp at h
  have hbody : (buf.take len.toNat).length = len.toNat := by
    rw [List.length_take]
    omega
  have hlen' : len = ((buf.take len.toNat).length : Int) := by
    rw [hbody]
    omega
  refine ⟨buf.take len.toNat, buf.drop len.toNat, (List.take_append_drop _ _).symm, hlen',
    by omega, ?_⟩
  have hv := parse_append (c := c) (buf.take len.toNat) (by omega) (by omega)
    (buf.drop len.toNat)
  rw [List.take_append_drop, ← hlen', hparse] at hv
  exact (Option.some.inj hv).symm

/-! ### The loop ends -/

variable {cb : Callbacks σ Msg}

theorem onMessageRound_again {s s' : ReadState σ Msg} (h : c.onMessageRound cb s = .again s') :
    ∃ it, c.onMessageBody cb s.readBuf s.env = it ∧
      c.minFrameLen ≤ getReadBufferLen s.readBuf ∧ it.again = true ∧
      s' = ⟨it.readBuf, it.env, s.trace ++ it.events⟩ := by
  refine ⟨_, rfl, ?_⟩
  simp only [onMessageRound] at h
  split_ifs at h with hguard hagain
  exact ⟨hguard, hagain, (Round.again.inj h).symm⟩

theorem onMessageRound_done {s s' : ReadState σ Msg} (h : c.onMessageRound cb s = .done s') :
    (¬ c.minFrameLen ≤ getReadBufferLen s.readBuf ∧ s' = s) ∨
      ∃ it, c.onMessageBody cb s.readBuf s.env = it ∧
        c.minFrameLen ≤ getReadBufferLen s.readBuf ∧ it.again = false ∧
        s' = ⟨it.readBuf, it.env, s.trace ++ it.events⟩ := by
  simp only [onMessageRound] at h
  split_ifs at h with hguard hagain
  · exact Or.inr ⟨_, rfl, hguard, by simpa using hagain, (Round.done.inj h).symm⟩
  · exact Or.inl ⟨hguard, (Round.done.inj h).symm⟩

/-- What a round can do: reject the length, find the frame incomplete, drop it for `rawCb`, or hand
it to `parse`, which leaves the buffer, reports no error or reports one. -/
theorem onMessageBody_cases (cb : Callbacks σ Msg) (readBuf : Bytes) (env : σ) :
    let len := asInt32 (readBuf.take 4)
    let buf := readBuf.drop 4
    ((len > maxMessageLen ∨ uint32 len < c.minMessageLen) ∧
      c.onMessageBody cb readBuf env =
        ⟨buf, cb.errorCallback env .invalidLength, [.errorCallback .invalidLength], false⟩) ∨
    (len ≤ maxMessageLen ∧ c.minMessageLen ≤ uint32 len ∧
      ((getReadBufferLen buf < uint32 len ∧
          c.onMessageBody cb readBuf env = ⟨buf, env, [], false⟩) ∨
        (uint32 len ≤ getReadBufferLen buf ∧ ∃ env' raw,
          ((cb.callRaw env buf len = (false, env', raw) ∧
              c.onMessageBody cb readBuf env = ⟨evbufferDrain buf len, env', raw, true⟩) ∨
            (cb.callRaw env buf len = (true, env', raw) ∧
              ((c.parse buf len = none ∧ c.onMessageBody cb readBuf env =
                  ⟨buf, env', raw ++ [Event.parse len buf.length, .outOfBounds], false⟩) ∨
                (∃ m, c.parse buf len = some (.noError, m) ∧ c.onMessageBody cb readBuf env =
                  ⟨evbufferDrain buf len, cb.messageCallback env' buf m,
                    raw ++ [Event.parse len buf.length, .messageCallback m], true⟩) ∨
                (∃ e m, e ≠ .noError ∧ c.parse buf len = some (e, m) ∧
                  c.onMessageBody cb readBuf env = ⟨buf, cb.errorCallback env' e,
                    raw ++ [Event.parse len buf.length, .errorCallback e], false⟩))))))) := by
  intro len buf
  by_cases hgate : len > maxMessageLen ∨ uint32 len < c.minMessageLen
  · exact Or.inl ⟨hgate, by rw [onMessageBody, headerLen]; exact if_pos hgate⟩
  refine Or.inr ⟨by omega, by omega, ?_⟩
  rw [onMessageBody, headerLen, if_neg hgate]
  by_cases hfits : uint32 len ≤ getReadBufferLen buf
  · refine Or.inr ⟨hfits, ?_⟩
    rw [if_pos hfits]
    rcases hraw : cb.callRaw env buf len with ⟨_ | _, env', raw⟩
    · exact ⟨env', raw, Or.inl ⟨rfl, rfl⟩⟩
    · refine ⟨env', raw, Or.inr ⟨rfl, ?_⟩⟩
      rcases hp : c.parse buf len with _ | ⟨e, m⟩
      · exact Or.inl ⟨rfl, rfl⟩
      · cases e
        case noError => exact Or.inr (Or.inl ⟨m, rfl, rfl⟩)
        all_goals exact Or.inr (Or.inr ⟨_, m, by decide, rfl, rfl⟩)
  · exact Or.inl ⟨by omega, if_neg hfits⟩

/-- The round of the loop on a complete frame of admissible length: `rawCb` drops it, or the verdict
on its bytes decides. -/
theorem onMessageBody_frame {readBuf body rest : Bytes}
    (hhead : asInt32 (readBuf.take 4) = body.length) (hdrop : readBuf.drop 4 = body ++ rest)
    (hlo : c.tag.length + 4 ≤ body.length) (hhi : body.length ≤ maxMessageLen)
    (hread : body.length ≤ getReadBufferLen (body ++ rest)) (cb : Callbacks σ Msg) (env : σ) :
    ∃ (env' : σ) (raw : List (Event Msg)),
      (cb.callRaw env (body ++ rest) body.length = (false, env', raw) ∧
        c.onMessageBody cb readBuf env = ⟨rest, env', raw, true⟩) ∨
      (cb.callRaw env (body ++ rest) body.length = (true, env', raw) ∧
        ((∃ m, c.verdict body = (.noError, m) ∧
            c.onMessageBody cb readBuf env = ⟨rest, cb.messageCallback env' (body ++ rest) m,
              raw ++ [Event.parse body.length (body ++ rest).length, .messageCallback m], true⟩) ∨
          (∃ e m, e ≠ .noError ∧ c.verdict body = (e, m) ∧
            c.onMessageBody cb readBuf env = ⟨body ++ rest, cb.errorCallback env' e,
              raw ++ [Event.parse body.length (body ++ rest).length, .errorCallback e],
              false⟩))) := by
  simp only [maxMessageLen] at hhi
  have hdrain : evbufferDrain (body ++ rest) body.length = rest := by
    rw [evbufferDrain, uint64_natCast_of_lt (by omega), List.drop_left]
  have hparse := parse_append (c := c) body hlo (by omega) rest
  have huint : uint32 body.length = body.length := uint32_natCast_of_lt (by omega)
  have hmin := minMessageLen_of_lt (c := c) (by omega)
  rcases onMessageBody_cases (c := c) cb readBuf env with ⟨hgate, -⟩ | ⟨-, -, ⟨hshort, -⟩ |
    ⟨-, env', raw, ⟨hraw, hb⟩ | ⟨hraw, ⟨hp, -⟩ | ⟨m, hp, hb⟩ | ⟨e, m, he, hp, hb⟩⟩⟩⟩ <;>
    simp only [hhead, hdrop, huint] at *
  · simp only [maxMessageLen] at hgate
    omega
  · omega
  · exact ⟨env', raw, Or.inl ⟨hraw, by rw [hb, hdrain]⟩⟩
  · rw [hparse] at hp
    cases hp
  · have hv : c.verdict body = (.noError, m) := Option.some.inj (hparse.symm.trans hp)
    exact ⟨env', raw, Or.inr ⟨hraw, Or.inl ⟨m, hv, by rw [hb, hdrain]⟩⟩⟩
  · have hv : c.verdict body = (e, m) := Option.some.inj (hparse.symm.trans hp)
    exact ⟨env', raw, Or.inr ⟨hraw, Or.inr ⟨e, m, he, hv, hb⟩⟩⟩

/-- A round that is followed by another one has found a complete frame and drained it. -/
theorem onMessageBody_again {buf : Bytes} {env : σ} {it : Iteration σ Msg}
    (hit : c.onMessageBody cb buf env = it) (h : it.again = true) :
    c.minMessageLen ≤ getReadBufferLen (buf.drop 4) ∧
      it.readBuf = evbufferDrain (buf.drop 4) (asInt32 (buf.take 4)) := by
  rcases onMessageBody_cases (c := c) cb buf env with ⟨-, hb⟩ | ⟨-, hmin, ⟨-, hb⟩ |
    ⟨hfits, env', raw, ⟨-, hb⟩ | ⟨-, ⟨-, hb⟩ | ⟨m, -, hb⟩ | ⟨e, m, -, -, hb⟩⟩⟩⟩ <;>
    obtain rfl := hb.symm.trans hit
  case inr.inr.inl => exact ⟨hmin.trans hfits, rfl⟩
  case inr.inr.inr.inr.inl => exact ⟨hmin.trans hfits, rfl⟩
  all_goals exact absurd h Bool.false_ne_true

/-- `rawCb` is called at most once for a frame, and nothing else with it. -/
theorem callRaw_eq {env env' : σ} {buf : Bytes} {len : Int} {ok : Bool} {raw : List (Event Msg)}
    (h : cb.callRaw env buf len = (ok, env', raw)) : raw = [] ∨ raw = [.rawCb len ok] := by
  rw [Callbacks.callRaw] at h
  split at h
  · exact Or.inl (congrArg (fun r => r.2.2) h).symm
  · obtain ⟨rfl, -, rfl⟩ : _ ∧ _ ∧ _ := by simpa only [Prod.mk.injEq] using h
    exact Or.inr rfl

/-- The last round hands no message over and takes the header only. -/
theorem onMessageBody_last {buf : Bytes} {env : σ} {it : Iteration σ Msg}
    (hit : c.onMessageBody cb buf env = it) (h : it.again = false) :
    it.readBuf = buf.drop 4 ∧ ∀ m, .messageCallback m ∉ it.events := by
  rcases onMessageBody_cases (c := c) cb buf env with ⟨-, hb⟩ | ⟨-, -, ⟨-, hb⟩ | ⟨-, env', raw,
    ⟨-, hb⟩ | ⟨hcall, ⟨-, hb⟩ | ⟨m, -, hb⟩ | ⟨e, m, -, -, hb⟩⟩⟩⟩ <;>
    obtain rfl := hb.symm.trans hit
  case inl => exact ⟨rfl, by simp⟩
  case inr.inl => exact ⟨rfl, by simp⟩
  case inr.inr.inr.inl => exact ⟨rfl, by rcases callRaw_eq hcall with rfl | rfl <;> simp⟩
  case inr.inr.inr.inr.inr => exact ⟨rfl, by rcases callRaw_eq hcall with rfl | rfl <;> simp⟩
  all_goals exact absurd h.symm Bool.false_ne_true

theorem getReadBufferLen_nil : getReadBufferLen [] = 0 :=
  uint32_natCast_of_lt (by decide)

/-- A further round starts from a shorter buffer: an empty one would pass neither the condition of
the loop nor the length test. -/
theorem decreasing_onMessageRound (c : Codec Msg) (cb : Callbacks σ Msg) :
    Decreasing (c.onMessageRound cb) fun s => s.readBuf.length := by
  intro s s' h
  obtain ⟨it, hit, hguard, hagain, rfl⟩ := onMessageRound_again h
  obtain ⟨hmin, hbuf⟩ := onMessageBody_again hit hagain
  have hpos : s.readBuf.length ≠ 0 := by
    intro h0
    rw [List.length_eq_zero_iff.mp h0, List.drop_nil, getReadBufferLen_nil] at hmin
    rw [List.length_eq_zero_iff.mp h0, getReadBufferLen_nil, Codec.minFrameLen,
      Nat.le_zero.mp hmin, uint32_natCast_of_lt (by decide)] at hguard
    exact absurd hguard (by decide)
  have hlt : it.readBuf.length < s.readBuf.length := by
    rw [hbuf, evbufferDrain, List.length_drop, List.length_drop]
    omega
  exact hlt

/-- `onMessage` ends on every content of the read buffer. -/
theorem onMessage_isSome (c : Codec Msg) (cb : Callbacks σ Msg) (s : ReadState σ Msg) :
    ∃ s', c.onMessage cb s = some s' :=
  WhileLoop.eval_isSome (decreasing_onMessageRound c cb) s

/-! ### Rounds and events -/

theorem onMessage_again {s s' : ReadState σ Msg} (h : c.onMessageRound cb s = .again s') :
    c.onMessage cb s = c.onMessage cb s' :=
  eval_again (decreasing_onMessageRound c cb) h

theorem onMessage_done {s s' : ReadState σ Msg} (h : c.onMessageRound cb s = .done s') :
    c.onMessage cb s = some s' :=
  eval_done h

/-- The loop works through the buffer from its front. -/
theorem suffix_of_reaches {s h : ReadState σ Msg} (hr : Reaches (c.onMessageRound cb) s h) :
    ∃ pre, s.readBuf = pre ++ h.readBuf := by
  induction hr with
  | refl => exact ⟨[], rfl⟩
  | tail _ hstep ih =>
    obtain ⟨pre, hpre⟩ := ih
    obtain ⟨it, hit, -, hagain, rfl⟩ := onMessageRound_again hstep
    obtain ⟨-, hbuf⟩ := onMessageBody_again hit hagain
    rw [hpre, hbuf, evbufferDrain, List.drop_drop]
    exact ⟨pre ++ List.take _ _, by rw [List.append_assoc, List.take_append_drop]⟩

/-- Every event of a call belongs to one of its rounds. -/
theorem mem_trace_onMessage {s s' : ReadState σ Msg} (h : c.onMessage cb s = some s')
    {e : Event Msg} (he : e ∈ s'.trace) :
    e ∈ s.trace ∨ ∃ r, c.Visits cb s r ∧ e ∈ (c.onMessageBody cb r.readBuf r.env).events := by
  obtain ⟨b, hb, hQ⟩ := eval_induction (decreasing_onMessageRound c cb) (a := s)
    (P := fun a => Reaches (c.onMessageRound cb) s a ∧ ∀ e ∈ a.trace, e ∈ s.trace ∨
      ∃ r, c.Visits cb s r ∧ e ∈ (c.onMessageBody cb r.readBuf r.env).events)
    (Q := fun b => ∀ e ∈ b.trace, e ∈ s.trace ∨
      ∃ r, c.Visits cb s r ∧ e ∈ (c.onMessageBody cb r.readBuf r.env).events)
    ⟨.refl, fun e he => Or.inl he⟩
    (by
      rintro a b ⟨hr, htr⟩ hab
      refine ⟨hr.tail hab, fun e he => ?_⟩
      obtain ⟨it, hit, hguard, -, rfl⟩ := onMessageRound_again hab
      rcases List.mem_append.mp he with he | he
      · exact htr e he
      · exact Or.inr ⟨a, ⟨hr, hguard⟩, hit ▸ he⟩)
    (by
      rintro a b ⟨hr, htr⟩ hab e he
      rcases onMessageRound_done hab with ⟨-, rfl⟩ | ⟨it, hit, hguard, -, rfl⟩
      · exact htr e he
      · rcases List.mem_append.mp he with he | he
        · exact htr e he
        · exact Or.inr ⟨a, ⟨hr, hguard⟩, hit ▸ he⟩)
  obtain rfl : s' = b := Option.some.inj (h.symm.trans hb)
  exact hQ e he

/-- A round on a state with `P`, which `rawCb` and the message callback preserve, ends with a call
of the error callback, or makes none and leaves a state with `P`. -/
theorem onMessageBody_errorCallback {P : σ → Prop}
    (hraw : ∀ env buf len, P env → P (cb.callRaw env buf len).2.1)
    (hmessage : ∀ env buf m, P env → P (cb.messageCallback env buf m)) {buf : Bytes} {env : σ}
    (henv : P env) {it : Iteration σ Msg} (hit : c.onMessageBody cb buf env = it) :
    (P it.env ∧ ∀ code, .errorCallback code ∉ it.events) ∨
      (it.again = false ∧ ∃ env' code, P env' ∧ it.env = cb.errorCallback env' code) := by
  have hcalled : ∀ {env' : σ} {raw : List (Event Msg)} {b : Bool},
      cb.callRaw env (buf.drop 4) (asInt32 (buf.take 4)) = (b, env', raw) →
        P env' ∧ ∀ code, .errorCallback code ∉ raw := by
    intro env' raw b hcall
    have henv' := hraw env (buf.drop 4) (asInt32 (buf.take 4)) henv
    rw [hcall] at henv'
    exact ⟨henv', fun code => by rcases callRaw_eq hcall with rfl | rfl <;> simp⟩
  rcases onMessageBody_cases (c := c) cb buf env with ⟨-, hb⟩ | ⟨-, -, ⟨-, hb⟩ | ⟨-, env', raw,
    ⟨hcall, hb⟩ | ⟨hcall, ⟨-, hb⟩ | ⟨m, -, hb⟩ | ⟨e, m, -, -, hb⟩⟩⟩⟩ <;>
    obtain rfl := hb.symm.trans hit
  case inl => exact Or.inr ⟨rfl, env, .invalidLength, henv, rfl⟩
  case inr.inl => exact Or.inl ⟨henv, by simp⟩
  all_goals obtain ⟨henv', hevents⟩ := hcalled hcall
  case inr.inr.inl => exact Or.inl ⟨henv', hevents⟩
  case inr.inr.inr.inl => exact Or.inl ⟨henv', by simpa using hevents⟩
  case inr.inr.inr.inr.inl => exact Or.inl ⟨hmessage _ _ _ henv', by simpa using hevents⟩
  case inr.inr.inr.inr.inr => exact Or.inr ⟨rfl, env', e, henv', rfl⟩

/-- **The error callback is called at most once, as the last thing,** in a state that the other
callbacks have led to. -/
theorem onMessage_errorCallback {P : σ → Prop}
    (hraw : ∀ env buf len, P env → P (cb.callRaw env buf len).2.1)
    (hmessage : ∀ env buf m, P env → P (cb.messageCallback env buf m)) {s s' : ReadState σ Msg}
    (hs : P s.env) (htrace : ∀ code, .errorCallback code ∉ s.trace)
    (h : c.onMessage cb s = some s') {code : ErrorCode} (hcode : .errorCallback code ∈ s'.trace) :
    ∃ env code, P env ∧ s'.env = cb.errorCallback env code := by
  obtain ⟨b, hb, hQ⟩ := eval_induction (decreasing_onMessageRound c cb) (a := s)
    (P := fun a => P a.env ∧ ∀ code, .errorCallback code ∉ a.trace)
    (Q := fun b => (∀ code, .errorCallback code ∉ b.trace) ∨
      ∃ env code, P env ∧ b.env = cb.errorCallback env code)
    ⟨hs, htrace⟩
    (by
      rintro a b ⟨henv, htr⟩ hab
      obtain ⟨it, hit, -, hagain, rfl⟩ := onMessageRound_again hab
      rcases onMessageBody_errorCallback hraw hmessage henv hit with ⟨henv', hevents⟩ | ⟨hlast, -⟩
      · exact ⟨henv', fun code => by simp [htr code, hevents code]⟩
      · simp [hagain] at hlast)
    (by
      rintro a b ⟨henv, htr⟩ hab
      rcases onMessageRound_done hab with ⟨-, rfl⟩ | ⟨it, hit, -, -, rfl⟩
      · exact Or.inl htr
      · rcases onMessageBody_errorCallback hraw hmessage henv hit with ⟨-, hevents⟩ | ⟨-, herror⟩
        · exact Or.inl fun code => by simp [htr code, hevents code]
        · exact Or.inr herror)
  obtain rfl : s' = b := Option.some.inj (h.symm.trans hb)
  exact hQ.resolve_left fun hnone => hnone code hcode

end Codec

end MRpc
