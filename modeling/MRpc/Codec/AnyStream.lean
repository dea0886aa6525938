import MRpc.Codec.Chunking
import MRpc.Codec.Validity

/-!
# Any stream of bytes

A peer sends any bytes at all, and they arrive in portions of any size. The decoder may lose its
place in them, when it takes a header whose frame is incomplete or refuses a frame and goes on with
the next portion. Still it invents nothing: the messages that it hands over in the whole life of a
connection are those of frames that lie in the stream one after the other, without overlap and in
the order of the messages, so that no byte belongs to two of them.

Two things bound this. The callbacks leave the read buffer alone, as those of the program do; and a
negative length, which passes the test of the header when 2 GiB are readable, makes `parse` read
outside the frame, which ends the run.

## Main definitions

* `Codec.AcceptedFrame`: the bytes of a frame, and the message that is made of them.
* `Codec.InOrder`: a stream that contains the frames of these messages one after the other.
* `Codec.Overruns`: a run that comes to a portion on which memory outside a frame is read.

## Main results

* `Codec.inOrder_onMessageBody`, `Codec.errors_onMessageBody`, `Codec.overreads_onMessageBody`: what
  one round of the loop takes.
* `Codec.inOrder_onMessage`: what one call of `onMessage` takes.
* `Codec.inOrder_feed`: any stream, in any portions.
-/

namespace MRpc

open FixedWidth WhileLoop

variable {σ Msg : Type}

namespace Codec

variable (c : Codec Msg) (cb : Callbacks σ Msg)

/-- The bytes of a frame: its length, which is in range, the tag, a payload, and the checksum of tag
and payload. The message is what the parser has made of the payload, also where it has failed. -/
def AcceptedFrame (frame : Bytes) (m : Msg) : Prop :=
  ∃ head payload sum, frame = head ++ (c.tag ++ payload ++ sum) ∧ head.length = headerLen ∧
    sum.length = checksumLen ∧ asInt32 head = (c.tag ++ payload ++ sum).length ∧
    (c.tag ++ payload ++ sum).length ≤ maxMessageLen ∧
    Adler.adler32 Adler.init (c.tag ++ payload) = beNat sum ∧
    (c.proto.parseFromArray payload).2 = m

/-- A stream that contains the frames of these messages in this order, and other bytes between
them. -/
inductive InOrder : Bytes → List Msg → Prop
  | nil : InOrder [] []
  | skip {stream : Bytes} {ms : List Msg} (h : InOrder stream ms) (bytes : Bytes) :
      InOrder (stream ++ bytes) ms
  | frame {stream frame : Bytes} {ms : List Msg} {m : Msg} (h : InOrder stream ms)
      (hframe : c.AcceptedFrame frame m) : InOrder (stream ++ frame) (ms ++ [m])

/-- The run from `s` comes to a portion on which `onMessage` reads memory outside its block. -/
def Overruns (s : ReadState σ Msg) (chunks : List Bytes) : Prop :=
  ∃ pre chunk suf s₁ s₂, chunks = pre ++ chunk :: suf ∧ c.feed cb s pre = some s₁ ∧
    c.onMessage cb { s₁ with readBuf := s₁.readBuf ++ chunk } = some s₂ ∧ .outOfBounds ∈ s₂.trace

variable {c cb}

theorem InOrder.append {stream stream' : Bytes} {ms ms' : List Msg} (h : c.InOrder stream ms)
    (h' : c.InOrder stream' ms') : c.InOrder (stream ++ stream') (ms ++ ms') := by
  induction h' with
  | nil => simpa using h
  | skip _ bytes ih =>
    rw [← List.append_assoc]
    exact ih.skip bytes
  | frame _ hframe ih =>
    rw [← List.append_assoc, ← List.append_assoc]
    exact ih.frame hframe

theorem InOrder.of_skipped (bytes : Bytes) : c.InOrder bytes [] := InOrder.nil.skip bytes

/-! ### One round -/

/-- A frame with a good verdict. -/
theorem acceptedFrame_of_verdict {head body : Bytes} {m : Msg} (hhead : head.length = 4)
    (hlen : asInt32 head = body.length) (hlo : c.tag.length + 4 ≤ body.length)
    (hhi : body.length ≤ maxMessageLen) (hv : c.verdict body = (.noError, m)) :
    c.AcceptedFrame (head ++ body) m := by
  obtain ⟨hsum, htag⟩ := verdict_eq_noError.mp (congrArg Prod.fst hv)
  have hcovered := tag_append_payload hlo htag
  have hbody : c.tag ++ c.payload body ++ body.drop (body.length - 4) = body := by
    rw [hcovered, List.take_append_drop]
  refine ⟨head, c.payload body, body.drop (body.length - 4), by rw [hbody], hhead, ?_, ?_, ?_, ?_,
    ?_⟩
  · rw [List.length_drop, checksumLen]
    omega
  · rw [hbody, hlen]
  · rw [hbody]
    exact hhi
  · rw [hcovered]
    exact hsum
  · rw [verdict, if_pos hsum, if_pos htag] at hv
    exact congrArg Prod.snd hv

theorem messages_callRaw {env env' : σ} {buf : Bytes} {len : Int} {ok : Bool}
    {raw : List (Event Msg)} (h : cb.callRaw env buf len = (ok, env', raw)) :
    messages raw = [] ∧ errors raw = [] ∧ overreads raw = false := by
  rcases callRaw_eq h with rfl | rfl
  · exact ⟨rfl, rfl, rfl⟩
  · exact ⟨rfl, rfl, rfl⟩

/-- A round takes bytes from the front of the buffer: those of a frame, if it hands a message over,
and any others otherwise. -/
theorem inOrder_onMessageBody {readBuf : Bytes} {env : σ} {it : Iteration σ Msg}
    (hit : c.onMessageBody cb readBuf env = it) :
    ∃ taken, readBuf = taken ++ it.readBuf ∧ c.InOrder taken (messages it.events) := by
  -- Where no message is handed over, it does not matter what was taken.
  have hskip (n : Nat) (hmessages : messages it.events = []) (hbuf : it.readBuf = readBuf.drop n) :
      ∃ taken, readBuf = taken ++ it.readBuf ∧ c.InOrder taken (messages it.events) := by
    rw [hbuf, hmessages]
    exact ⟨readBuf.take n, (List.take_append_drop _ _).symm, .of_skipped _⟩
  rcases onMessageBody_cases (c := c) cb readBuf env with ⟨-, hb⟩ | ⟨hmax, -, ⟨-, hb⟩ |
    ⟨-, env', raw, ⟨hraw, hb⟩ | ⟨hraw, ⟨-, hb⟩ | ⟨m, hp, hb⟩ | ⟨e, m, -, -, hb⟩⟩⟩⟩ <;>
    obtain rfl := hb.symm.trans hit
  case inl => exact hskip 4 rfl rfl
  case inr.inl => exact hskip 4 rfl rfl
  case inr.inr.inl =>
    exact hskip (4 + uint64 (asInt32 (readBuf.take 4))) (messages_callRaw hraw).1
      (by rw [evbufferDrain, List.drop_drop])
  case inr.inr.inr.inl =>
    exact hskip 4 (by rw [messages_append, (messages_callRaw hraw).1]; rfl) rfl
  case inr.inr.inr.inr.inr =>
    exact hskip 4 (by rw [messages_append, (messages_callRaw hraw).1]; rfl) rfl
  case inr.inr.inr.inr.inl =>
    obtain ⟨body, rest, hbuf, hlen, hlo, hv⟩ := parse_eq_noError (asInt32_bounds _).2 hp
    have hhead : (readBuf.take 4).length = 4 := by
      have hlength := congrArg List.length hbuf
      simp only [List.length_drop, List.length_append] at hlength
      rw [List.length_take]
      omega
    have hdrain : evbufferDrain (readBuf.drop 4) (asInt32 (readBuf.take 4)) = rest := by
      simp only [maxMessageLen] at hmax
      rw [hbuf, hlen, evbufferDrain, uint64_natCast_of_lt (by omega), List.drop_left]
    refine ⟨readBuf.take 4 ++ body, ?_, ?_⟩
    · rw [hdrain, List.append_assoc, ← hbuf, List.take_append_drop]
    · rw [messages_append, (messages_callRaw hraw).1, ← List.nil_append (readBuf.take 4 ++ body)]
      exact InOrder.nil.frame (acceptedFrame_of_verdict hhead hlen hlo (by omega) hv)

/-- A round reports an error at most once, and none if another round follows. -/
theorem errors_onMessageBody {readBuf : Bytes} {env : σ} {it : Iteration σ Msg}
    (hit : c.onMessageBody cb readBuf env = it) :
    (errors it.events).length ≤ if it.again then 0 else 1 := by
  rcases onMessageBody_cases (c := c) cb readBuf env with ⟨-, hb⟩ | ⟨-, -, ⟨-, hb⟩ |
    ⟨-, env', raw, ⟨hraw, hb⟩ | ⟨hraw, ⟨-, hb⟩ | ⟨m, -, hb⟩ | ⟨e, m, -, -, hb⟩⟩⟩⟩ <;>
    obtain rfl := hb.symm.trans hit
  case inl => exact Nat.le_refl 1
  case inr.inl => exact Nat.zero_le 1
  case inr.inr.inl => rw [(messages_callRaw hraw).2.1]; exact Nat.le_refl 0
  all_goals rw [errors_append, (messages_callRaw hraw).2.1, List.nil_append]
  case inr.inr.inr.inl => exact Nat.zero_le 1
  case inr.inr.inr.inr.inl => exact Nat.le_refl 0
  case inr.inr.inr.inr.inr => exact Nat.le_refl 1

/-- A round that reads memory outside its block is the last one, and comes about by a negative
length with 2 GiB readable behind it. -/
theorem overreads_onMessageBody {readBuf : Bytes} {env : σ} {it : Iteration σ Msg}
    (hit : c.onMessageBody cb readBuf env = it) (hover : overreads it.events = true) :
    it.again = false ∧ (c.tag.length + 4 < 4294967296 → 2147483648 ≤ readBuf.length) := by
  rcases onMessageBody_cases (c := c) cb readBuf env with ⟨-, hb⟩ | ⟨hmax, hmin, ⟨-, hb⟩ |
    ⟨hfits, env', raw, ⟨hraw, hb⟩ | ⟨hraw, ⟨hp, hb⟩ | ⟨m, -, hb⟩ | ⟨e, m, -, -, hb⟩⟩⟩⟩ <;>
    obtain rfl := hb.symm.trans hit
  case inr.inr.inr.inl =>
    refine ⟨rfl, fun htag => ?_⟩
    by_contra hshort
    have hpos : 0 ≤ asInt32 (readBuf.take 4) := by
      by_contra hneg
      have hbounds := asInt32_bounds (readBuf.take 4)
      simp only [getReadBufferLen, uint32, List.length_drop] at hfits
      omega
    obtain ⟨body, rest, hbuf, hlen, hlo, hhi⟩ := parse_in_frame htag hmax hmin hfits hpos
    have hverdict := parse_append (c := c) body hlo
      (by simp only [maxMessageLen] at hhi; omega) rest
    rw [hbuf, hlen, hverdict] at hp
    cases hp
  case inr.inr.inl => rw [(messages_callRaw hraw).2.2] at hover; cases hover
  case inr.inr.inr.inr.inl =>
    rw [overreads_append, (messages_callRaw hraw).2.2] at hover
    cases hover
  case inr.inr.inr.inr.inr =>
    rw [overreads_append, (messages_callRaw hraw).2.2] at hover
    cases hover
  all_goals cases hover

/-! ### Whole calls and whole streams -/

/-- What a call has done when it is at the head of its loop: it has taken bytes with the frames of
the messages that it has handed over, and found nothing wrong. -/
def TakenSo (c : Codec Msg) (s a : ReadState σ Msg) : Prop :=
  ∃ taken new, s.readBuf = taken ++ a.readBuf ∧ a.trace = s.trace ++ new ∧
    c.InOrder taken (messages new) ∧ errors new = [] ∧ overreads new = false

/-- What a call has done when it returns. -/
def TakenAll (c : Codec Msg) (s a : ReadState σ Msg) : Prop :=
  ∃ taken new, s.readBuf = taken ++ a.readBuf ∧ a.trace = s.trace ++ new ∧
    c.InOrder taken (messages new) ∧ (errors new).length ≤ 1 ∧
    (c.tag.length + 4 < 4294967296 → overreads new = true → 2147483648 ≤ s.readBuf.length)

theorem TakenSo.all {s a : ReadState σ Msg} (h : c.TakenSo s a) : c.TakenAll s a := by
  obtain ⟨taken, new, hbuf, htrace, horder, herrors, hover⟩ := h
  exact ⟨taken, new, hbuf, htrace, horder, by simp [herrors], fun _ h => by simp [hover] at h⟩

theorem TakenSo.round {s a : ReadState σ Msg} (h : c.TakenSo s a) {it : Iteration σ Msg}
    (hit : c.onMessageBody cb a.readBuf a.env = it) :
    (it.again = true → c.TakenSo s ⟨it.readBuf, it.env, a.trace ++ it.events⟩) ∧
      (it.again = false → c.TakenAll s ⟨it.readBuf, it.env, a.trace ++ it.events⟩) := by
  obtain ⟨taken, new, hbuf, htrace, horder, herrors, hover⟩ := h
  obtain ⟨more, hmore, horder'⟩ := inOrder_onMessageBody hit
  have herr := errors_onMessageBody hit
  have hbuf' : s.readBuf = taken ++ more ++ it.readBuf := by
    rw [hbuf, hmore, List.append_assoc]
  have htrace' : a.trace ++ it.events = s.trace ++ (new ++ it.events) := by
    rw [htrace, List.append_assoc]
  have horder'' : c.InOrder (taken ++ more) (messages (new ++ it.events)) := by
    rw [messages_append]
    exact horder.append horder'
  constructor
  · intro hagain
    rw [hagain, if_pos rfl, Nat.le_zero, List.length_eq_zero_iff] at herr
    refine ⟨_, _, hbuf', htrace', horder'', by rw [errors_append, herrors, herr]; rfl, ?_⟩
    rw [overreads_append, hover, Bool.false_or, ← Bool.not_eq_true]
    intro hit'
    rw [(overreads_onMessageBody hit hit').1] at hagain
    cases hagain
  · intro hlast
    rw [hlast, if_neg Bool.false_ne_true] at herr
    refine ⟨_, _, hbuf', htrace', horder'', by rwa [errors_append, herrors], fun htag hread => ?_⟩
    rw [overreads_append, hover, Bool.false_or] at hread
    have hlen := (overreads_onMessageBody hit hread).2 htag
    rw [hbuf, List.length_append]
    omega

/-- **A call of `onMessage`** takes bytes from the front of the buffer, with the frames of the
messages that it hands over in order, reports at most one error, and reads outside its block only if
there are 2 GiB in the buffer. -/
theorem inOrder_onMessage {s s' : ReadState σ Msg} (h : c.onMessage cb s = some s') :
    c.TakenAll s s' := by
  obtain ⟨b, hb, hQ⟩ := eval_induction (decreasing_onMessageRound c cb) (a := s)
    (P := c.TakenSo s) (Q := c.TakenAll s)
    ⟨[], [], rfl, (List.append_nil _).symm, .nil, rfl, rfl⟩
    (by
      intro a b ha hab
      obtain ⟨it, hit, -, hagain, rfl⟩ := onMessageRound_again hab
      exact (ha.round hit).1 hagain)
    (by
      intro a b ha hab
      rcases onMessageRound_done hab with ⟨-, rfl⟩ | ⟨it, hit, -, hlast, rfl⟩
      · exact ha.all
      · exact (ha.round hit).2 hlast)
  obtain rfl : s' = b := Option.some.inj (h.symm.trans hb)
  exact hQ

/-- The portions so far, where the stream before is what was taken and what is in the buffer. -/
theorem inOrder_of_feed {s s' : ReadState σ Msg} {taken : Bytes} {chunks : List Bytes}
    (hs : c.InOrder taken (messages s.trace)) (h : c.feed cb s chunks = some s') :
    ∃ taken', taken ++ s.readBuf ++ chunks.flatten = taken' ++ s'.readBuf ∧
      c.InOrder taken' (messages s'.trace) := by
  induction chunks generalizing s taken with
  | nil =>
    obtain rfl := Option.some.inj h
    exact ⟨taken, List.append_nil _, hs⟩
  | cons chunk chunks ih =>
    obtain ⟨u, hu, -, hrest⟩ := exists_of_feed_cons h
    obtain ⟨more, new, hbuf, htrace, hmore, -⟩ := inOrder_onMessage hu
    simp only at hbuf htrace
    have horder : c.InOrder (taken ++ more) (messages u.trace) := by
      rw [htrace, messages_append]
      exact hs.append hmore
    obtain ⟨taken', hstream, horder'⟩ := ih horder hrest
    refine ⟨taken', ?_, horder'⟩
    rw [← hstream, List.flatten_cons, ← List.append_assoc, List.append_assoc taken, hbuf,
      List.append_assoc taken more]

/-- A run comes to its end, or to a portion on which memory outside a frame is read. -/
theorem exists_feed_or_overruns (cb : Callbacks σ Msg) (s : ReadState σ Msg)
    (chunks : List Bytes) : (∃ s', c.feed cb s chunks = some s') ∨ c.Overruns cb s chunks := by
  induction chunks generalizing s with
  | nil => exact Or.inl ⟨s, rfl⟩
  | cons chunk chunks ih =>
    obtain ⟨u, hu⟩ := onMessage_isSome c cb { s with readBuf := s.readBuf ++ chunk }
    cases hread : overreads u.trace with
    | true => exact Or.inr ⟨[], chunk, chunks, s, u, rfl, rfl, hu, overreads_eq_true.mp hread⟩
    | false =>
      have hcons := fun rest => feed_cons cb (s := s) rest hu hread
      refine (ih u).imp ?_ ?_
      · rintro ⟨s', hs'⟩
        exact ⟨s', (hcons chunks).trans hs'⟩
      · rintro ⟨pre, chunk', suf, s₁, s₂, rfl, hpre, hcall, hout⟩
        exact ⟨chunk :: pre, chunk', suf, s₁, s₂, rfl, (hcons pre).trans hpre, hcall, hout⟩

/-- **The decoder invents nothing.** Whatever bytes arrive on a connection, in whatever portions,
and whatever the callbacks do that leave the read buffer alone: the run comes to the end of the
stream, or to a portion on which memory outside a frame is read, where it ends. For every portion
that it comes to, the loop of `onMessage` ends and reports at most one error, the messages that have
been handed over by then are those of frames that lie in the stream one after the other, in the same
order and without overlap, and memory outside a frame is read only if 2 GiB were in the buffer. -/
theorem inOrder_feed (c : Codec Msg) (cb : Callbacks σ Msg) (env : σ) (chunks : List Bytes) :
    ((∃ s, c.feed cb ⟨[], env, []⟩ chunks = some s) ∨ c.Overruns cb ⟨[], env, []⟩ chunks) ∧
      ∀ pre chunk suf s, chunks = pre ++ chunk :: suf → c.feed cb ⟨[], env, []⟩ pre = some s →
        ∃ s' new, c.onMessage cb { s with readBuf := s.readBuf ++ chunk } = some s' ∧
          s'.trace = s.trace ++ new ∧ (errors new).length ≤ 1 ∧
          c.InOrder (pre ++ [chunk]).flatten (messages s'.trace) ∧
          (c.tag.length + 4 < 4294967296 → .outOfBounds ∈ new →
            2147483648 ≤ (s.readBuf ++ chunk).length) := by
  refine ⟨exists_feed_or_overruns cb _ chunks, fun pre chunk suf s _ hpre => ?_⟩
  obtain ⟨taken, hstream, horder⟩ := inOrder_of_feed (s := ⟨[], env, []⟩) .nil hpre
  obtain ⟨s', hs'⟩ := onMessage_isSome c cb { s with readBuf := s.readBuf ++ chunk }
  obtain ⟨more, new, hbuf, htrace, hmore, herrors, hread⟩ := inOrder_onMessage hs'
  simp only at hbuf htrace
  refine ⟨s', new, hs', htrace, herrors, ?_, fun htag hout => hread htag ?_⟩
  · have hflatten : (pre ++ [chunk]).flatten = taken ++ more ++ s'.readBuf := by
      rw [List.nil_append, List.nil_append] at hstream
      rw [List.flatten_append, hstream, List.flatten_singleton, List.append_assoc, hbuf,
        List.append_assoc]
    rw [hflatten, htrace, messages_append]
    exact (horder.append hmore).skip _
  · exact overreads_eq_true.mpr hout

end Codec

end MRpc
