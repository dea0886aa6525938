import MRpc.Codec.RoundTrip

/-!
# What the decoder accepts

Two things stand between the bytes of a peer and the callbacks: the test of the length, before
anything of a frame is touched, and the verdict of `parse`. Both have a gap. The test compares
the length as a signed number with the maximum and as an unsigned one with the minimum, so that a
negative length passes; and the verdict on a payload that does not parse is `noError`, the initial
value of the error variable.

Both are followed through every round of the loop, on any content of the read buffer.

## Main definitions

* `Codec.GateHolds`: in a round, a length out of range is reported and `parse` stays inside the
  frame.
* `Codec.HeaderSlips`: the header is negative and passes the test.
* `Codec.HandedToParse`: the frame that a round hands to `parse`.
* `Codec.DeliversOnlyParsed`: a call hands over only messages that parsed, and reports the others.
* `Codec.SwallowsParseFailure`: a round meets a valid frame with a payload that does not parse.

## Main results

* `Codec.gateHolds_iff`, `Codec.lengthGate_iff`: the gate holds where the header does not slip.
* `Codec.events_of_handedToParse`: what a round does with a complete frame.
* `Codec.deliversOnlyParsed_iff`: only parsed messages are delivered exactly where no valid frame
  with an unparsable payload is met.
-/

namespace MRpc

open FixedWidth WhileLoop

variable {σ Msg : Type}

namespace Codec

variable (c : Codec Msg) (cb : Callbacks σ Msg)

/-! ### The length gate -/

/-- In the round from `h`, a header out of range is answered by the error callback alone, and
`parse` is called with a length in range that is readable, so that the offsets it computes lie
inside the frame. -/
def GateHolds (h : ReadState σ Msg) : Prop :=
  let len := asInt32 (h.readBuf.take headerLen)
  let events := (c.onMessageBody cb h.readBuf h.env).events
  (¬ (c.minMessageLen ≤ len ∧ len ≤ maxMessageLen) → events = [.errorCallback .invalidLength]) ∧
    ∀ l readable, .parse l readable ∈ events →
      c.minMessageLen ≤ l ∧ l ≤ maxMessageLen ∧
      readable = (h.readBuf.drop headerLen).length ∧ l ≤ readable ∧
      (0 ≤ l - checksumLen ∧ l - checksumLen ≤ l) ∧ c.tag.length ≤ l ∧
      (0 ≤ c.dataLen l ∧ c.tag.length + c.dataLen l ≤ l) ∧ .outOfBounds ∉ events

/-- The header at `h` is a negative number that passes the length test. -/
def HeaderSlips (h : ReadState σ Msg) : Prop :=
  asInt32 (h.readBuf.take headerLen) < 0 ∧
    c.minMessageLen ≤ uint32 (asInt32 (h.readBuf.take headerLen))

variable {c cb}

theorem uint32_asInt32_of_nonneg {buf : Bytes} (h : 0 ≤ asInt32 buf) :
    (uint32 (asInt32 buf) : Int) = asInt32 buf :=
  uint32_of_lt h (by have := asInt32_bounds buf; omega)

/-- A length that passes the test and is not negative is in range. -/
theorem parse_in_frame (htag : c.tag.length + 4 < 4294967296) {readBuf : Bytes}
    (hmax : asInt32 (readBuf.take 4) ≤ maxMessageLen)
    (hmin : c.minMessageLen ≤ uint32 (asInt32 (readBuf.take 4)))
    (hfits : uint32 (asInt32 (readBuf.take 4)) ≤ getReadBufferLen (readBuf.drop 4))
    (hpos : 0 ≤ asInt32 (readBuf.take 4)) :
    ∃ body rest, readBuf.drop 4 = body ++ rest ∧ asInt32 (readBuf.take 4) = body.length ∧
      c.tag.length + 4 ≤ body.length ∧ body.length ≤ maxMessageLen := by
  have huint := uint32_asInt32_of_nonneg hpos
  have hread : getReadBufferLen (readBuf.drop 4) ≤ (readBuf.drop 4).length := by
    simp only [getReadBufferLen, uint32]
    omega
  rw [minMessageLen_of_lt htag] at hmin
  set n := uint32 (asInt32 (readBuf.take 4))
  have hlen : ((readBuf.drop 4).take n).length = n := by
    rw [List.length_take]
    omega
  exact ⟨(readBuf.drop 4).take n, (readBuf.drop 4).drop n, (List.take_append_drop _ _).symm,
    by omega, by omega, by omega⟩

/-- A header that passes the length test and does not slip through is not negative. -/
theorem asInt32_nonneg {h : ReadState σ Msg} (hslip : ¬ c.HeaderSlips h)
    (hmin : c.minMessageLen ≤ uint32 (asInt32 (h.readBuf.take 4))) :
    0 ≤ asInt32 (h.readBuf.take 4) := by
  by_contra hneg
  exact hslip ⟨by simpa [headerLen] using hneg, hmin⟩

/-- What a round hands to `parse` if its header does not slip through: a complete frame of a length
in range, on which `parse` reads nothing outside it. -/
theorem exists_frame_of_parse (htag : c.tag.length + 4 < 4294967296) {h : ReadState σ Msg}
    (hslip : ¬ c.HeaderSlips h) {l : Int} {readable : Nat}
    (hparse : .parse l readable ∈ (c.onMessageBody cb h.readBuf h.env).events) :
    ∃ body rest, h.readBuf.drop 4 = body ++ rest ∧ c.tag.length + 4 ≤ body.length ∧
      body.length ≤ maxMessageLen ∧ l = body.length ∧ readable = (body ++ rest).length ∧
      .outOfBounds ∉ (c.onMessageBody cb h.readBuf h.env).events := by
  rcases onMessageBody_cases (c := c) cb h.readBuf h.env with ⟨-, hb⟩ | ⟨hmax, hmin, ⟨-, hb⟩ |
    ⟨hfits, env', raw, ⟨hraw, hb⟩ | ⟨hraw, hp⟩⟩⟩
  · simp [hb] at hparse
  · simp [hb] at hparse
  · rw [hb] at hparse
    rcases callRaw_eq hraw with rfl | rfl <;> simp at hparse
  obtain ⟨body, rest, hbuf, hlen, hlo, hhi⟩ :=
    parse_in_frame htag hmax hmin hfits (asInt32_nonneg hslip hmin)
  have hverdict := parse_append (c := c) body hlo
    (by simp only [maxMessageLen] at hhi; omega) rest
  simp only [hbuf, hlen] at hp
  refine ⟨body, rest, hbuf, hlo, hhi, ?_⟩
  rcases hp with ⟨hp, -⟩ | ⟨m, -, hb⟩ | ⟨e, m, -, -, hb⟩
  · rw [hverdict] at hp
    cases hp
  all_goals
    rw [hb] at hparse ⊢
    rcases callRaw_eq hraw with rfl | rfl <;> simpa using hparse

/-- A round holds the gate exactly if its header does not slip through. -/
theorem gateHolds_iff (htag : c.tag.length + 4 < 4294967296) (h : ReadState σ Msg) :
    c.GateHolds cb h ↔ ¬ c.HeaderSlips h := by
  constructor
  · rintro ⟨hgate, -⟩ ⟨hneg, hmin⟩
    simp only [headerLen] at hgate hneg hmin
    have hev := hgate fun hr => by omega
    rcases onMessageBody_cases (c := c) cb h.readBuf h.env with ⟨hout, -⟩ | ⟨-, -, ⟨-, hb⟩ |
      ⟨-, env', raw, ⟨hraw, hb⟩ | ⟨hraw, ⟨-, hb⟩ | ⟨m, -, hb⟩ | ⟨e, m, -, -, hb⟩⟩⟩⟩
    · simp only [maxMessageLen] at hout
      omega
    all_goals rw [hb] at hev
    · simp at hev
    all_goals rcases callRaw_eq hraw with rfl | rfl <;> simp at hev
  · intro hslip
    constructor
    · intro hrange
      simp only [headerLen] at hrange
      rcases onMessageBody_cases (c := c) cb h.readBuf h.env with ⟨-, hb⟩ | ⟨hmax, hmin, -⟩
      · rw [hb]
      · have huint := uint32_asInt32_of_nonneg (asInt32_nonneg hslip hmin)
        exact absurd ⟨by omega, hmax⟩ hrange
    · intro l readable hparse
      obtain ⟨body, rest, hbuf, hlo, hhi, hl, rfl, hoob⟩ :=
        exists_frame_of_parse htag hslip hparse
      obtain rfl : l = body.length := Int.ofNat.inj hl
      have hdata := dataLen_eq (c := c) (show (c.tag.length : Int) ≤ body.length by omega)
        (by simp only [maxMessageLen] at hhi; omega)
      simp only [headerLen, checksumLen]
      rw [minMessageLen_of_lt htag, hbuf, hdata, List.length_append]
      exact ⟨by omega, by omega, rfl, by omega, by omega, by omega, by omega, hoob⟩

/-- **The length gate.** In every round of a call of `onMessage`, a header out of range is reported
as `invalidLength` and `parse` stays inside the frame it is called for, if and only if no round of
the call meets a negative header that passes the test. -/
theorem lengthGate_iff (htag : c.tag.length + 4 < 4294967296) (s : ReadState σ Msg) :
    (∀ h, c.Visits cb s h → c.GateHolds cb h) ↔ ∀ h, c.Visits cb s h → ¬ c.HeaderSlips h :=
  forall₂_congr fun h _ => gateHolds_iff htag h

/-- A frame of the program, and behind it a header that is out of range: neither of the two rounds
of the call meets a header that slips through, and both hold the gate. -/
theorem lengthGate_putRequest :
    (∀ h, rpcCodec.Visits plainCallbacks
        ⟨rpcCodec.wireFrame putRequest ++ [4, 0, 0, 1, 0, 0, 0, 0, 0, 0, 0, 0], (), []⟩ h →
      ¬ rpcCodec.HeaderSlips h) ∧
    ∀ h, rpcCodec.Visits plainCallbacks
        ⟨rpcCodec.wireFrame putRequest ++ [4, 0, 0, 1, 0, 0, 0, 0, 0, 0, 0, 0], (), []⟩ h →
      rpcCodec.GateHolds plainCallbacks h := by
  refine (and_iff_left_of_imp (lengthGate_iff (by decide) _).mpr).mpr ?_
  rintro h ⟨hreach, -⟩
  have hframe : (rpcCodec.onMessageBody plainCallbacks (rpcCodec.wireFrame putRequest ++
      [4, 0, 0, 1, 0, 0, 0, 0, 0, 0, 0, 0]) ()).readBuf =
        [4, 0, 0, 1, 0, 0, 0, 0, 0, 0, 0, 0] := by decide +kernel
  have hheader : (rpcCodec.onMessageBody plainCallbacks
      [4, 0, 0, 1, 0, 0, 0, 0, 0, 0, 0, 0] ()).again = false := by decide +kernel
  -- The loop stands before the frame, or before the header behind it.
  have hbuf : h.readBuf = rpcCodec.wireFrame putRequest ++ [4, 0, 0, 1, 0, 0, 0, 0, 0, 0, 0, 0] ∨
      h.readBuf = [4, 0, 0, 1, 0, 0, 0, 0, 0, 0, 0, 0] := by
    induction hreach with
    | refl => exact Or.inl rfl
    | @tail a b _ hround ih =>
      obtain ⟨it, hit, -, hagain, rfl⟩ := onMessageRound_again hround
      rcases ih with ha | ha <;> rw [ha] at hit <;> subst hit
      · exact Or.inr hframe
      · exact absurd (hheader.symm.trans hagain) Bool.false_ne_true
  rintro ⟨hneg, -⟩
  rcases hbuf with hbuf | hbuf <;> rw [hbuf] at hneg <;> exact absurd hneg (by decide +kernel)

/-- A header of four bytes `255`, the length `-1`, with eight more bytes in the buffer: nothing is
reported. -/
theorem not_lengthGate_negative :
    ¬ ∀ h, rpcCodec.Visits plainCallbacks
        ⟨[255, 255, 255, 255, 0, 0, 0, 0, 0, 0, 0, 0], (), []⟩ h →
      rpcCodec.GateHolds plainCallbacks h := by
  intro hall
  have hvisit : rpcCodec.minFrameLen ≤
      getReadBufferLen [255, 255, 255, 255, 0, 0, 0, 0, 0, 0, 0, 0] := by decide +kernel
  obtain ⟨hgate, -⟩ := hall _ ⟨.refl, hvisit⟩
  have hevents : (rpcCodec.onMessageBody plainCallbacks
      [255, 255, 255, 255, 0, 0, 0, 0, 0, 0, 0, 0] ()).events = [] := by decide +kernel
  have hout := hgate (by decide +kernel)
  rw [hevents] at hout
  cases hout

/-! ### Delivered messages -/

variable (c cb)

/-- The round from `h` hands the frame `body` to `parse`: it is complete, its length is in range and
`rawCb` lets it pass. -/
def HandedToParse (h : ReadState σ Msg) (body : Bytes) : Prop :=
  ∃ rest, h.readBuf.drop headerLen = body ++ rest ∧
    asInt32 (h.readBuf.take headerLen) = body.length ∧
    c.tag.length + checksumLen ≤ body.length ∧ body.length ≤ maxMessageLen ∧
    body.length ≤ getReadBufferLen (body ++ rest) ∧
    (cb.callRaw h.env (body ++ rest) body.length).1 = true

/-- `m` was parsed successfully from the payload of a frame in `buf` whose length is in range, whose
checksum is that of tag and payload and whose tag is that of the codec. -/
def ParsedFrom (buf : Bytes) (m : Msg) : Prop :=
  ∃ pre head body post, buf = pre ++ head ++ body ++ post ∧ head.length = headerLen ∧
    asInt32 head = body.length ∧ c.minMessageLen ≤ body.length ∧ body.length ≤ maxMessageLen ∧
    Adler.adler32 Adler.init (c.tag ++ c.payload body) =
      beNat (body.drop (body.length - checksumLen)) ∧
    body.take c.tag.length = c.tag ∧ c.proto.parseFromArray (c.payload body) = (true, m)

/-- A call of `onMessage` hands over only messages that parsed, and a frame whose payload does not
parse leads to the error callback and not to `messageCallback`. -/
def DeliversOnlyParsed (readBuf : Bytes) (env : σ) : Prop :=
  (∀ s', c.onMessage cb ⟨readBuf, env, []⟩ = some s' →
    ∀ m, .messageCallback m ∈ s'.trace → c.ParsedFrom readBuf m) ∧
  ∀ h, c.Visits cb ⟨readBuf, env, []⟩ h → ∀ body, c.HandedToParse cb h body →
    (c.proto.parseFromArray (c.payload body)).1 = false →
      (∃ code, .errorCallback code ∈ (c.onMessageBody cb h.readBuf h.env).events) ∧
      ∀ m, .messageCallback m ∉ (c.onMessageBody cb h.readBuf h.env).events

/-- The round from `h` hands to `parse` a frame with matching checksum and tag whose payload does
not parse. -/
def SwallowsParseFailure (h : ReadState σ Msg) : Prop :=
  ∃ body, c.HandedToParse cb h body ∧ ChecksumOk body ∧ body.take c.tag.length = c.tag ∧
    (c.proto.parseFromArray (c.payload body)).1 = false

variable {c cb}

/-- What a round does with a frame that it hands to `parse`. -/
theorem events_of_handedToParse {h : ReadState σ Msg} {body : Bytes}
    (hh : c.HandedToParse cb h body) :
    ∃ raw n, (raw = [] ∨ raw = [.rawCb body.length true]) ∧
      (c.onMessageBody cb h.readBuf h.env).events = raw ++ [Event.parse body.length n,
        if (c.verdict body).1 = .noError then .messageCallback (c.verdict body).2
        else .errorCallback (c.verdict body).1] := by
  obtain ⟨rest, hbuf, hlen, hlo, hhi, hread, hok⟩ := hh
  obtain ⟨env', raw, ⟨hraw, -⟩ | ⟨hraw, ⟨m, hv, hb⟩ | ⟨e, m, he, hv, hb⟩⟩⟩ :=
    onMessageBody_frame (c := c) hlen hbuf hlo hhi hread cb h.env
  · rw [hraw] at hok
    exact absurd hok Bool.false_ne_true
  all_goals
    refine ⟨raw, (body ++ rest).length, callRaw_eq hraw, ?_⟩
    rw [hb, hv]
  · rfl
  · rw [if_neg he]

/-- A message that a round delivers comes from the frame that it hands to `parse`. -/
theorem handedToParse_of_delivered {h : ReadState σ Msg} {m : Msg}
    (hm : .messageCallback m ∈ (c.onMessageBody cb h.readBuf h.env).events) :
    ∃ body, c.HandedToParse cb h body ∧ c.verdict body = (.noError, m) := by
  rcases onMessageBody_cases (c := c) cb h.readBuf h.env with ⟨-, hb⟩ | ⟨hmax, -, ⟨-, hb⟩ |
    ⟨hfits, env', raw, ⟨hraw, hb⟩ | ⟨hraw, ⟨-, hb⟩ | ⟨m', hp, hb⟩ | ⟨e, m', -, -, hb⟩⟩⟩⟩
  case inr.inr.inr.inr.inl =>
    obtain rfl : m = m' := by
      rw [hb] at hm
      rcases callRaw_eq hraw with rfl | rfl <;> simpa using hm
    obtain ⟨body, rest, hbuf, hlen, hlo, hv⟩ := parse_eq_noError (asInt32_bounds _).2 hp
    refine ⟨body, ⟨rest, hbuf, hlen, hlo, by omega, ?_, ?_⟩, hv⟩
    · rw [hlen, uint32_natCast_of_lt (by simp only [maxMessageLen] at hmax; omega), hbuf] at hfits
      exact hfits
    · rw [← hlen, ← hbuf, hraw]
  all_goals
    rw [hb] at hm
    try rcases callRaw_eq hraw with rfl | rfl
    all_goals simp at hm

theorem verdict_eq_noError {body : Bytes} :
    (c.verdict body).1 = .noError ↔ ChecksumOk body ∧ body.take c.tag.length = c.tag := by
  rw [verdict]
  split_ifs with h1 h2 <;> simp [h1]
  · exact h2
  · exact h2

/-- Tag and payload of a frame are what its checksum covers. -/
theorem tag_append_payload {body : Bytes} (hlo : c.tag.length + 4 ≤ body.length)
    (htag : body.take c.tag.length = c.tag) :
    c.tag ++ c.payload body = body.take (body.length - 4) := by
  have hcut : (body.take (body.length - 4)).take c.tag.length = c.tag := by
    rw [List.take_take, Nat.min_eq_left (by omega), htag]
  calc c.tag ++ c.payload body
      = (body.take (body.length - 4)).take c.tag.length ++ c.payload body := by rw [hcut]
    _ = body.take (body.length - 4) := List.take_append_drop _ _

/-- A frame that a round of a call hands to `parse` is a part of the buffer of the call. -/
theorem HandedToParse.parsedFrom {s h : ReadState σ Msg} {body : Bytes} {m : Msg}
    (hh : c.HandedToParse cb h body) (hreach : Reaches (c.onMessageRound cb) s h)
    (hsum : ChecksumOk body) (htag : body.take c.tag.length = c.tag)
    (hparse : c.proto.parseFromArray (c.payload body) = (true, m)) :
    c.ParsedFrom s.readBuf m := by
  obtain ⟨rest, hbuf, hlen, hlo, hhi, -, -⟩ := hh
  obtain ⟨pre, hpre⟩ := suffix_of_reaches hreach
  simp only [headerLen, checksumLen, maxMessageLen] at hbuf hlen hlo hhi
  have hhead : (h.readBuf.take 4).length = 4 := by
    have := congrArg List.length hbuf
    simp only [List.length_drop, List.length_append] at this
    rw [List.length_take]
    omega
  refine ⟨pre, h.readBuf.take 4, body, rest, ?_, hhead, hlen, ?_, hhi, ?_, htag, hparse⟩
  · rw [List.append_assoc, List.append_assoc, ← hbuf, List.take_append_drop, ← hpre]
  · rw [minMessageLen_of_lt (by omega)]
    exact hlo
  · rw [tag_append_payload hlo htag]
    exact hsum

/-- **Only parsed messages are delivered** by a call of `onMessage`, and frames that do not parse
are reported, if and only if no round of the call meets a frame with matching checksum and tag whose
payload does not parse: such a frame is delivered as far as it was parsed. -/
theorem deliversOnlyParsed_iff (readBuf : Bytes) (env : σ) :
    c.DeliversOnlyParsed cb readBuf env ↔
      ∀ h, c.Visits cb ⟨readBuf, env, []⟩ h → ¬ c.SwallowsParseFailure cb h := by
  constructor
  · rintro ⟨-, hreport⟩ h hvis ⟨body, hh, hsum, htag, hfail⟩
    obtain ⟨-, hnone⟩ := hreport h hvis body hh hfail
    obtain ⟨raw, n, -, hev⟩ := events_of_handedToParse hh
    rw [if_pos (verdict_eq_noError.mpr ⟨hsum, htag⟩)] at hev
    exact hnone (c.verdict body).2 (by simp [hev])
  · intro hgood
    refine ⟨fun s' hs' m hm => ?_, fun h hvis body hh hfail => ?_⟩
    · rcases mem_trace_onMessage hs' hm with hnil | ⟨h, hvis, hm⟩
      · simp at hnil
      obtain ⟨body, hh, hv⟩ := handedToParse_of_delivered hm
      have hok := verdict_eq_noError.mp (congrArg Prod.fst hv)
      have hparsed : (c.proto.parseFromArray (c.payload body)).1 = true := by
        by_contra hfail
        exact hgood h hvis ⟨body, hh, hok.1, hok.2, by simpa using hfail⟩
      have hmsg : (c.proto.parseFromArray (c.payload body)).2 = m := by
        rw [verdict, if_pos hok.1, if_pos hok.2] at hv
        exact congrArg Prod.snd hv
      exact hh.parsedFrom hvis.1 hok.1 hok.2 (Prod.ext hparsed hmsg)
    · obtain ⟨raw, n, hraw, hev⟩ := events_of_handedToParse hh
      have hbad : ¬ (c.verdict body).1 = .noError := fun h0 =>
        hgood h hvis ⟨body, hh, (verdict_eq_noError.mp h0).1, (verdict_eq_noError.mp h0).2, hfail⟩
      rw [if_neg hbad] at hev
      rw [hev]
      refine ⟨⟨_, List.mem_append_right _ (List.mem_cons_of_mem _ List.mem_cons_self)⟩, ?_⟩
      rcases hraw with rfl | rfl <;> simp

/-- A frame of the program whose payload is cut off in the middle of the id: the checksum and the
tag match, the payload does not parse. -/
def truncatedFrame : Bytes :=
  be32 11 ++ (rpctag ++ [8, 1, 17] ++ be32 (Adler.adler32 Adler.init (rpctag ++ [8, 1, 17])))

/-- The message of which only the type was parsed is handed to `messageCallback`. -/
theorem not_deliversOnlyParsed_truncated :
    ¬ rpcCodec.DeliversOnlyParsed plainCallbacks truncatedFrame () := by
  rintro ⟨-, hreport⟩
  have hvisit : rpcCodec.minFrameLen ≤ getReadBufferLen truncatedFrame := by decide +kernel
  have hhanded : rpcCodec.HandedToParse plainCallbacks ⟨truncatedFrame, (), []⟩
      (truncatedFrame.drop 4) :=
    ⟨[], by decide +kernel, by decide +kernel, by decide +kernel, by decide +kernel,
      by decide +kernel, rfl⟩
  obtain ⟨-, hnone⟩ := hreport _ ⟨.refl, hvisit⟩ _ hhanded (by decide +kernel)
  have hevents : (rpcCodec.onMessageBody plainCallbacks truncatedFrame ()).events =
      [.parse 11 11, .messageCallback { RpcMessage.empty with type? := some .request }] := by
    decide +kernel
  refine hnone { RpcMessage.empty with type? := some .request } ?_
  rw [hevents]
  simp

end Codec

end MRpc
