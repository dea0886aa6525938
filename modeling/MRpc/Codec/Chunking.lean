import MRpc.Codec.RoundTrip
import MRpc.Lib.Blocks

/-!
# A stream that arrives in chunks

TCP cuts the stream of frames where it likes; each chunk is appended to the read buffer and
`onMessage` is called. A call that finds the header of a frame, but not all of the frame, has
already taken the header out of the buffer when it gives up, and the next call reads the tag as a
length. So a cut is harmless when fewer than `minFrameLen` bytes of the unfinished frame lie
before it (`onMessage` then does not touch them), and loses the stream otherwise.

## Main definitions

* `Codec.feed`: chunks appended one by one, with a call of `onMessage` after each.
* `Codec.ChunkingInvisible`: the callbacks and the buffer do not show how the stream was cut.
* `Codec.CutsHarmless`: no cut leaves a header without its frame.
* `Codec.TagOutOfRange`: the tag, read as a length, is refused.

## Main results

* `Codec.feed_wireFrames`: harmless cuts are not seen.
* `Codec.feed_of_isPrefix`: once the tag stands at the front of the buffer, nothing is delivered.
* `Codec.chunkingInvisible_iff`: the cuts that are not seen are the harmless ones.
-/

namespace MRpc

open FixedWidth WhileLoop Blocks

variable {σ Msg : Type}

namespace Codec

variable (c : Codec Msg) (cb : Callbacks σ Msg)

/-- Each chunk is appended to the read buffer, and `onMessage` is called. A call that reads memory
outside its block ends the run, as what the program does then is not defined. -/
def feed : ReadState σ Msg → List Bytes → Option (ReadState σ Msg)
  | s, [] => some s
  | s, chunk :: chunks =>
    match c.onMessage cb { s with readBuf := s.readBuf ++ chunk } with
    | none => none
    | some s' => if overreads s'.trace then none else feed s' chunks

/-- Fed in chunks, the stream gives the messages and the remaining bytes that it gives as a
whole, and no error. -/
def ChunkingInvisible (env : σ) (stream : Bytes) (chunks : List Bytes) : Prop :=
  ∃ whole r, c.onMessage cb ⟨stream, env, []⟩ = some whole ∧
    c.feed cb ⟨[], env, []⟩ chunks = some r ∧
    messages r.trace = messages whole.trace ∧ errors r.trace = [] ∧ r.readBuf = whole.readBuf

/-- After every chunk, fewer than `minFrameLen` bytes of an unfinished frame have arrived. -/
def CutsHarmless (frs : List Bytes) (start : Nat) (chunks : List Bytes) : Prop :=
  ∀ pre suf, pre ≠ [] → chunks = pre ++ suf →
    cutOffset frs (start + pre.flatten.length) < c.minFrameLen

/-- The first four bytes of a tag of ordinary length, read as the length of a frame, are
refused. -/
def TagOutOfRange : Prop :=
  4 ≤ c.tag.length ∧ c.tag.length + 8 < 4294967296 ∧
    (asInt32 c.tag > maxMessageLen ∨ uint32 (asInt32 c.tag) < c.minMessageLen)

variable {c}

theorem feed_cons {s s' : ReadState σ Msg} {chunk : Bytes} (chunks : List Bytes)
    (h : c.onMessage cb { s with readBuf := s.readBuf ++ chunk } = some s')
    (hread : overreads s'.trace = false) :
    c.feed cb s (chunk :: chunks) = c.feed cb s' chunks := by
  simp only [feed, h, hread, Bool.false_eq_true, ↓reduceIte]

variable {cb}

theorem exists_of_feed_cons {s r : ReadState σ Msg} {chunk : Bytes} {chunks : List Bytes}
    (h : c.feed cb s (chunk :: chunks) = some r) :
    ∃ s', c.onMessage cb { s with readBuf := s.readBuf ++ chunk } = some s' ∧
      overreads s'.trace = false ∧ c.feed cb s' chunks = some r := by
  rw [feed] at h
  split at h
  · cases h
  · next s' hcall =>
    split_ifs at h with hread
    exact ⟨s', hcall, Bool.not_eq_true _ ▸ hread, h⟩

variable (cb)

/-! ### Cuts and messages -/

/-- The messages before a cut of their frames, and the part of the next frame. -/
theorem exists_cut_wireFrames (ms : List Msg) {x y : Bytes} (h : x ++ y = c.wireFrames ms) :
    ∃ ms₁ ms₂ g, ms = ms₁ ++ ms₂ ∧ x = c.wireFrames ms₁ ++ g ∧ g ++ y = c.wireFrames ms₂ ∧
      ((ms₂ = [] ∧ g = []) ∨ ∃ m ms', ms₂ = m :: ms' ∧ g.length < (c.wireFrame m).length) ∧
      g.length = cutOffset (ms.map c.wireFrame) x.length ∧
      ∀ k, cutOffset (ms.map c.wireFrame) (x.length + k) =
        cutOffset (ms₂.map c.wireFrame) (g.length + k) := by
  obtain ⟨done, todo, g, hblocks, rfl, hy, hg, hoff⟩ := exists_cut (ms.map c.wireFrame) h
  obtain ⟨ms₁, ms₂, rfl, rfl, rfl⟩ := List.map_eq_append_iff.mp hblocks
  refine ⟨ms₁, ms₂, g, rfl, rfl, hy, ?_, hoff, fun k => ?_⟩
  · rcases hg with ⟨h1, h2⟩ | ⟨b, bs, h1, h2⟩
    · exact Or.inl ⟨List.map_eq_nil_iff.mp h1, h2⟩
    · obtain ⟨m, ms', rfl, rfl, rfl⟩ := List.map_eq_cons_iff.mp h1
      exact Or.inr ⟨m, ms', rfl, h2⟩
  · rw [List.map_append, List.length_append, Nat.add_assoc, cutOffset_append]

theorem CutsHarmless.tail {frs frs' : List Bytes} {start start' : Nat} {chunk : Bytes}
    {chunks : List Bytes} (h : c.CutsHarmless frs start (chunk :: chunks))
    (hoff : ∀ k, cutOffset frs (start + chunk.length + k) = cutOffset frs' (start' + k)) :
    c.CutsHarmless frs' start' chunks := by
  intro pre suf hpre hcut
  have hc := h (chunk :: pre) suf (by simp) (by rw [hcut, List.cons_append])
  rw [List.flatten_cons, List.length_append, ← Nat.add_assoc] at hc
  exact (hoff _) ▸ hc

theorem cutsHarmless_cons {frs frs' : List Bytes} {start start' : Nat} {chunk : Bytes}
    {chunks : List Bytes} (hhead : cutOffset frs (start + chunk.length) < c.minFrameLen)
    (hoff : ∀ k, cutOffset frs (start + chunk.length + k) = cutOffset frs' (start' + k))
    (h : c.CutsHarmless frs' start' chunks) : c.CutsHarmless frs start (chunk :: chunks) := by
  intro pre suf hpre hcut
  rcases pre with _ | ⟨b, pre⟩
  · exact absurd rfl hpre
  · obtain ⟨rfl, hcut'⟩ := List.cons.inj hcut
    rw [List.flatten_cons, List.length_append, ← Nat.add_assoc]
    by_cases hnil : pre = []
    · subst hnil
      simpa using hhead
    · rw [hoff]
      exact h pre suf hnil hcut'

/-! ### Harmless cuts -/

/-- One chunk after which fewer than `minFrameLen` bytes of an unfinished frame have arrived. -/
theorem onMessage_cut (hP : c.proto.Lawful) (hcb : cb.rawCb = none) {ms₁ : List Msg} {g : Bytes}
    (env : σ) (tr : List (Event Msg)) (hlen : ∀ m ∈ ms₁, (c.wireBody m).length ≤ maxMessageLen)
    (hg : g.length < c.minFrameLen) (hbuf : (c.wireFrames ms₁ ++ g).length < 4294967296) :
    ∃ env' tr', c.onMessage cb ⟨c.wireFrames ms₁ ++ g, env, tr⟩ = some ⟨g, env', tr'⟩ ∧
      messages tr' = messages tr ++ ms₁ ∧ errors tr' = errors tr ∧
      overreads tr' = overreads tr := by
  refine ⟨_, _, onMessage_wireFrames cb hP env tr hlen hg hbuf, ?_, ?_, ?_⟩
  · rw [messages_append, messages_deliverFrames_of_none cb hcb]
  · rw [errors_append, errors_deliverFrames, List.append_nil]
  · rw [overreads_append, overreads_deliverFrames, Bool.or_false]

/-- Harmless cuts are not seen: the messages arrive, without an error, and nothing is left. -/
theorem feed_wireFrames (hP : c.proto.Lawful) (hcb : cb.rawCb = none) {chunks : List Bytes}
    {ms : List Msg} {g : Bytes} (env : σ) {tr : List (Event Msg)} (htr : overreads tr = false)
    (hlen : ∀ m ∈ ms, (c.wireBody m).length ≤ maxMessageLen)
    (hbuf : (c.wireFrames ms).length < 4294967296) (hstream : g ++ chunks.flatten = c.wireFrames ms)
    (hg : (ms = [] ∧ g = []) ∨ ∃ m ms', ms = m :: ms' ∧ g.length < (c.wireFrame m).length)
    (hcuts : c.CutsHarmless (ms.map c.wireFrame) g.length chunks) :
    ∃ r, c.feed cb ⟨g, env, tr⟩ chunks = some r ∧ messages r.trace = messages tr ++ ms ∧
      errors r.trace = errors tr ∧ r.readBuf = [] := by
  induction chunks generalizing ms g env tr with
  | nil =>
    rw [List.flatten_nil, List.append_nil] at hstream
    rcases hg with ⟨rfl, rfl⟩ | ⟨m, ms', rfl, hg⟩
    · exact ⟨_, rfl, by simp, rfl, rfl⟩
    · rw [hstream, wireFrames_cons, List.length_append] at hg
      omega
  | cons chunk chunks ih =>
    rw [List.flatten_cons, ← List.append_assoc] at hstream
    have hchunk := hcuts [chunk] chunks (by simp) rfl
    obtain ⟨ms₁, ms₂, g', rfl, hx, hy, hg', hoff, hshift⟩ := exists_cut_wireFrames ms hstream
    rw [List.length_append] at hoff hshift
    simp only [List.flatten_singleton] at hchunk
    have hsplit : (c.wireFrames ms₁ ++ g').length < 4294967296 := by
      rw [← hx]
      rw [← hstream, List.length_append] at hbuf
      omega
    have hrest : (c.wireFrames ms₂).length < 4294967296 := by
      rw [wireFrames_append, List.length_append] at hbuf
      omega
    obtain ⟨env', tr', hcall, hmsg, herr, hread⟩ := onMessage_cut cb hP hcb env tr
      (fun m hm => hlen m (List.mem_append_left _ hm)) (hoff ▸ hchunk) hsplit
    rw [feed_cons cb chunks (s := ⟨g, env, tr⟩) (hx ▸ hcall) (hread.trans htr)]
    obtain ⟨r, hr, hmsg', herr', hnil⟩ := ih env' (hread.trans htr)
      (fun m hm => hlen m (List.mem_append_right _ hm)) hrest hy hg' (hcuts.tail hshift)
    exact ⟨r, hr, by rw [hmsg', hmsg, List.append_assoc], herr'.trans herr, hnil⟩

/-! ### A cut that loses the header -/

/-- The trace only grows. -/
theorem prefix_trace_onMessage {s s' : ReadState σ Msg} (h : c.onMessage cb s = some s') :
    s.trace <+: s'.trace := by
  obtain ⟨b, hb, hQ⟩ := eval_induction (decreasing_onMessageRound c cb) (a := s)
    (P := fun a => s.trace <+: a.trace) (Q := fun b => s.trace <+: b.trace) List.prefix_rfl
    (by
      intro a b ha hab
      obtain ⟨it, -, -, -, rfl⟩ := onMessageRound_again hab
      exact ha.trans (List.prefix_append _ _))
    (by
      intro a b ha hab
      rcases onMessageRound_done hab with ⟨-, rfl⟩ | ⟨it, -, -, -, rfl⟩
      · exact ha
      · exact ha.trans (List.prefix_append _ _))
  obtain rfl : s' = b := Option.some.inj (h.symm.trans hb)
  exact hQ

theorem errors_ne_nil_of_isPrefix {tr tr' : List (Event Msg)} (h : tr <+: tr')
    (he : errors tr ≠ []) : errors tr' ≠ [] := by
  obtain ⟨t, rfl⟩ := h
  rw [errors_append]
  exact fun hnil => he (List.append_eq_nil_iff.mp hnil).1

/-- A reported error stays reported. -/
theorem errors_feed_ne_nil {s r : ReadState σ Msg} {chunks : List Bytes}
    (he : errors s.trace ≠ []) (hr : c.feed cb s chunks = some r) : errors r.trace ≠ [] := by
  induction chunks generalizing s with
  | nil => exact Option.some.inj hr ▸ he
  | cons chunk chunks ih =>
    obtain ⟨s', hs', -, hrest⟩ := exists_of_feed_cons hr
    exact ih (errors_ne_nil_of_isPrefix (prefix_trace_onMessage cb hs') he) hrest

/-- With the tag at its front the buffer is not read, or the tag is refused as a length. -/
theorem onMessage_of_isPrefix (htag : c.TagOutOfRange) {s : ReadState σ Msg}
    (hpre : c.tag <+: s.readBuf) :
    ∃ s', c.onMessage cb s = some s' ∧ (s' = s ∨ errors s'.trace ≠ []) := by
  obtain ⟨hlong, -, hout⟩ := htag
  obtain ⟨t, ht⟩ := hpre
  have hhead : asInt32 (s.readBuf.take 4) = asInt32 c.tag := by
    rw [asInt32_take, ← ht, asInt32_append hlong]
  by_cases hguard : c.minFrameLen ≤ getReadBufferLen s.readBuf
  · rcases onMessageBody_cases (c := c) cb s.readBuf s.env with ⟨-, hb⟩ | ⟨h1, h2, -⟩
    · have hround : c.onMessageRound cb s = .done ⟨s.readBuf.drop 4,
          cb.errorCallback s.env .invalidLength, s.trace ++ [.errorCallback .invalidLength]⟩ := by
        simp only [onMessageRound, hguard, ↓reduceIte, hb, Bool.false_eq_true]
      exact ⟨_, onMessage_done hround, Or.inr (by simp [errors])⟩
    · simp only [hhead] at h1 h2
      omega
  · refine ⟨s, onMessage_done ?_, Or.inl rfl⟩
    simp only [onMessageRound, hguard, ↓reduceIte]

/-- Once the tag stands at the front of the buffer, no message is delivered any more. -/
theorem feed_of_isPrefix (htag : c.TagOutOfRange) {s r : ReadState σ Msg} {chunks : List Bytes}
    (hpre : c.tag <+: s.readBuf) (hr : c.feed cb s chunks = some r) :
    messages r.trace = messages s.trace ∨ errors r.trace ≠ [] := by
  induction chunks generalizing s with
  | nil => exact Or.inl (Option.some.inj hr ▸ rfl)
  | cons chunk chunks ih =>
    have hpre' : c.tag <+: s.readBuf ++ chunk := hpre.trans (List.prefix_append _ _)
    obtain ⟨s', hs', -, hrest⟩ := exists_of_feed_cons hr
    obtain ⟨u, hu, hcase⟩ := onMessage_of_isPrefix cb htag
      (s := { s with readBuf := s.readBuf ++ chunk }) hpre'
    obtain rfl : s' = u := Option.some.inj (hs'.symm.trans hu)
    rcases hcase with rfl | herr
    · exact ih (s := { s with readBuf := s.readBuf ++ chunk }) hpre' hrest
    · exact Or.inr (errors_feed_ne_nil cb herr hrest)

/-- A call that finds the header of a frame, but not all of the frame, takes the header. -/
theorem onMessage_partial {m : Msg} {g y : Bytes} (env : σ) (tr : List (Event Msg))
    (hlen : (c.wireBody m).length ≤ maxMessageLen) (hg : g ++ y = c.wireFrame m)
    (hlo : c.tag.length + 8 ≤ g.length) (hy : y ≠ []) :
    c.onMessage cb ⟨g, env, tr⟩ = some ⟨g.drop 4, env, tr⟩ ∧ c.tag <+: g.drop 4 := by
  have hL := length_wireBody (c := c) m
  have hglen : g.length + y.length = (c.wireBody m).length + 4 := by
    rw [← List.length_append, hg, length_wireFrame, hL]
  have hypos : 0 < y.length := List.length_pos_iff.mpr hy
  simp only [maxMessageLen] at hlen
  have hhead : asInt32 (g.take 4) = (c.wireBody m).length := by
    rw [asInt32_take, ← asInt32_append (by omega) y, hg, wireFrame, asInt32,
      beNat_be32_append (by omega), int32_of_bounds (by omega) (by omega)]
  have hdrop : g.drop 4 ++ y = c.wireBody m := by
    rw [← List.drop_append_of_le_length (by omega), hg, wireFrame]
    rfl
  have hread : getReadBufferLen (g.drop 4) = g.length - 4 := by
    rw [getReadBufferLen, List.length_drop, uint32_natCast_of_lt (by omega)]
  have hguard : c.minFrameLen ≤ getReadBufferLen g := by
    rw [getReadBufferLen, uint32_natCast_of_lt (by omega), minFrameLen_of_lt (by omega)]
    exact hlo
  have huint : uint32 (c.wireBody m).length = (c.wireBody m).length :=
    uint32_natCast_of_lt (by omega)
  have hmin := minMessageLen_of_lt (c := c) (by omega)
  constructor
  · refine onMessage_done ?_
    rcases onMessageBody_cases (c := c) cb g env with ⟨hgate, -⟩ | ⟨-, -, ⟨-, hb⟩ | ⟨hfits, -⟩⟩ <;>
      simp only [hhead, huint] at *
    · simp only [maxMessageLen] at hgate
      omega
    · simp only [onMessageRound, hguard, ↓reduceIte, hb, Bool.false_eq_true, List.append_nil]
    · omega
  · have hpre : c.tag <+: g.drop 4 ++ y := by
      rw [hdrop, wireBody, List.append_assoc]
      exact List.prefix_append _ _
    refine List.prefix_of_prefix_length_le hpre (List.prefix_append _ _) ?_
    rw [List.length_drop]
    omega

/-- A cut inside a frame, behind its header and its tag, loses the header of the frame. -/
theorem onMessage_cut_lost (hP : c.proto.Lawful) (hcb : cb.rawCb = none) {ms ms' : List Msg}
    {m : Msg} {g y : Bytes} (env : σ) (tr : List (Event Msg))
    (hlen : ∀ m ∈ ms, (c.wireBody m).length ≤ maxMessageLen)
    (hm : (c.wireBody m).length ≤ maxMessageLen)
    (hbuf : (c.wireFrames ms ++ g).length < 4294967296) (hy : g ++ y = c.wireFrames (m :: ms'))
    (hlt : g.length < (c.wireFrame m).length) (hlo : c.tag.length + 8 ≤ g.length) :
    ∃ env' tr', c.onMessage cb ⟨c.wireFrames ms ++ g, env, tr⟩ = some ⟨g.drop 4, env', tr'⟩ ∧
      c.tag <+: g.drop 4 ∧ messages tr' = messages tr ++ ms := by
  obtain ⟨y', hgy⟩ : g <+: c.wireFrame m := by
    have hpre : g <+: c.wireFrame m ++ c.wireFrames ms' := ⟨y, hy⟩
    exact List.prefix_of_prefix_length_le hpre (List.prefix_append _ _) hlt.le
  have hne : y' ≠ [] := by
    rintro rfl
    rw [← hgy, List.append_nil] at hlt
    exact lt_irrefl _ hlt
  have hcall := onMessage_wireFrames_append cb hP env tr hlen hbuf
  obtain ⟨hlost, hpre⟩ := onMessage_partial cb (c.deliverFrames cb g ms env).1
    (tr ++ (c.deliverFrames cb g ms env).2) hm hgy hlo hne
  rw [hlost] at hcall
  refine ⟨_, _, hcall, hpre, ?_⟩
  rw [messages_append, messages_deliverFrames_of_none cb hcb]

/-- A cut that is not harmless loses a message or makes an error. -/
theorem feed_of_not_cutsHarmless (hP : c.proto.Lawful) (hcb : cb.rawCb = none)
    (htag : c.TagOutOfRange) {chunks : List Bytes} {ms : List Msg} {g : Bytes} {env : σ}
    {tr : List (Event Msg)} (hlen : ∀ m ∈ ms, (c.wireBody m).length ≤ maxMessageLen)
    (hbuf : (c.wireFrames ms).length < 4294967296) (hstream : g ++ chunks.flatten = c.wireFrames ms)
    (hcuts : ¬ c.CutsHarmless (ms.map c.wireFrame) g.length chunks) {r : ReadState σ Msg}
    (hr : c.feed cb ⟨g, env, tr⟩ chunks = some r) :
    (messages r.trace).length < (messages tr).length + ms.length ∨ errors r.trace ≠ [] := by
  induction chunks generalizing ms g env tr with
  | nil =>
    refine absurd (fun pre suf hpre h => ?_) hcuts
    exact absurd (List.append_eq_nil_iff.mp h.symm).1 hpre
  | cons chunk chunks ih =>
    rw [List.flatten_cons, ← List.append_assoc] at hstream
    obtain ⟨ms₁, ms₂, g', rfl, hx, hy, hg', hoff, hshift⟩ := exists_cut_wireFrames ms hstream
    rw [List.length_append] at hoff hshift
    have hsplit : (c.wireFrames ms₁ ++ g').length < 4294967296 := by
      rw [← hx]
      rw [← hstream, List.length_append] at hbuf
      omega
    have hlen₁ : ∀ m ∈ ms₁, (c.wireBody m).length ≤ maxMessageLen :=
      fun m hm => hlen m (List.mem_append_left _ hm)
    obtain ⟨s', hs', -, hrest'⟩ := exists_of_feed_cons hr
    simp only [hx] at hs'
    by_cases hhead : g'.length < c.minFrameLen
    · -- The cut after this chunk is harmless; the bad one comes later.
      obtain ⟨env', tr', hcall, hmsg, -⟩ := onMessage_cut cb hP hcb env tr hlen₁ hhead hsplit
      obtain rfl := Option.some.inj (hs'.symm.trans hcall)
      have hrest : (c.wireFrames ms₂).length < 4294967296 := by
        rw [wireFrames_append, List.length_append] at hbuf
        omega
      have hbad := ih (fun m hm => hlen m (List.mem_append_right _ hm)) hrest hy
        (fun h => hcuts (cutsHarmless_cons (hoff ▸ hhead) hshift h)) hrest'
      rw [hmsg, List.length_append] at hbad
      rw [List.length_append]
      exact hbad.imp_left fun h => by omega
    · -- The header of the unfinished frame is lost here.
      have hmin := minFrameLen_of_lt htag.2.1
      rcases hg' with ⟨rfl, rfl⟩ | ⟨m, ms', rfl, hlt⟩
      · rw [hmin, List.length_nil] at hhead
        omega
      obtain ⟨env', tr', hcall, hpre, hmsg⟩ := onMessage_cut_lost cb hP hcb env tr hlen₁
        (hlen m (List.mem_append_right _ List.mem_cons_self)) hsplit hy hlt (by omega)
      obtain rfl := Option.some.inj (hs'.symm.trans hcall)
      refine (feed_of_isPrefix cb htag hpre hrest').imp_left fun h => ?_
      rw [h, hmsg]
      simp only [List.length_append, List.length_cons]
      omega

/-! ### Which cuts are seen -/

/-- An empty buffer gives no message. -/
theorem onMessage_nil (env : σ) (tr : List (Event Msg)) :
    ∃ w, c.onMessage cb ⟨[], env, tr⟩ = some w ∧ messages w.trace = messages tr ∧
      w.readBuf = [] := by
  cases hround : c.onMessageRound cb ⟨[], env, tr⟩ with
  | again b => exact absurd (decreasing_onMessageRound c cb _ b hround) (Nat.not_lt_zero _)
  | done w =>
    refine ⟨w, onMessage_done hround, ?_⟩
    rcases onMessageRound_done hround with ⟨-, rfl⟩ | ⟨it, hit, -, hlast, rfl⟩
    · exact ⟨rfl, rfl⟩
    · obtain ⟨hbuf, hmsg⟩ := onMessageBody_last hit hlast
      refine ⟨?_, hbuf⟩
      have hnone : messages it.events = [] :=
        List.eq_nil_iff_forall_not_mem.mpr fun m hm => hmsg m (mem_messages.mp hm)
      rw [messages_append, hnone, List.append_nil]

/-- What `onMessage` makes of a whole stream of frames. -/
theorem onMessage_stream (hP : c.proto.Lawful) (hcb : cb.rawCb = none) {ms : List Msg} (env : σ)
    (hlen : ∀ m ∈ ms, (c.wireBody m).length ≤ maxMessageLen)
    (hbuf : (c.wireFrames ms).length < 4294967296) :
    ∃ w, c.onMessage cb ⟨c.wireFrames ms, env, []⟩ = some w ∧ messages w.trace = ms ∧
      w.readBuf = [] := by
  by_cases hmin : 0 < c.minFrameLen
  · obtain ⟨env', tr', hcall, hmsg, -⟩ := onMessage_cut cb hP hcb env [] hlen
      (show ([] : Bytes).length < c.minFrameLen from hmin) (by simpa using hbuf)
    rw [List.append_nil] at hcall
    exact ⟨_, hcall, hmsg, rfl⟩
  · -- Only a tag of about `2 ^ 32` bytes makes the minimum wrap around; then there is no frame.
    rcases ms with _ | ⟨m, ms⟩
    · exact onMessage_nil cb env []
    · have hm := hlen m List.mem_cons_self
      simp only [length_wireBody, maxMessageLen] at hm
      rw [minFrameLen_of_lt (by omega)] at hmin
      omega

/-- **Which cuts are seen.** The frames that `fillEmptyBuffer` writes for a list of messages are
cut into chunks, which arrive one by one. If after every chunk fewer than `minFrameLen` bytes of
an unfinished frame have arrived, the callbacks see the messages that they see of the whole
stream, no error is reported and the same bytes are left. With a tag that is refused as a length,
such as the `mRpc` of `src/rpcCode.cpp`, any other cut is seen. -/
theorem chunkingInvisible_iff (hP : c.proto.Lawful) (hcb : cb.rawCb = none) (env : σ)
    {ms : List Msg} {frs chunks : List Bytes} (hfrs : List.Forall₂ c.IsFrame ms frs)
    (hfield : ∀ fr ∈ frs, beNat fr ≤ maxMessageLen) (hbuf : frs.flatten.length < 4294967296)
    (hchunks : chunks.flatten = frs.flatten) :
    (c.CutsHarmless frs 0 chunks → c.ChunkingInvisible cb env frs.flatten chunks) ∧
      (c.TagOutOfRange →
        (c.ChunkingInvisible cb env frs.flatten chunks ↔ c.CutsHarmless frs 0 chunks)) := by
  obtain ⟨rfl, hlen⟩ := eq_map_wireFrame hfrs hfield hbuf
  obtain ⟨whole, hwhole, hmsg, hleft⟩ := onMessage_stream cb hP hcb env hlen hbuf
  have hsuff : c.CutsHarmless (ms.map c.wireFrame) 0 chunks →
      c.ChunkingInvisible cb env (ms.map c.wireFrame).flatten chunks := by
    intro hcuts
    have hstart : (ms = [] ∧ ([] : Bytes) = []) ∨
        ∃ m ms', ms = m :: ms' ∧ ([] : Bytes).length < (c.wireFrame m).length := by
      rcases ms with _ | ⟨m, ms⟩
      · exact Or.inl ⟨rfl, rfl⟩
      · exact Or.inr ⟨m, ms, rfl, by rw [length_wireFrame, List.length_nil]; omega⟩
    have htr : overreads ([] : List (Event Msg)) = false := rfl
    obtain ⟨r, hr, hmsg', herr, hnil⟩ := feed_wireFrames cb hP hcb env htr hlen hbuf
      (g := []) hchunks hstart hcuts
    exact ⟨whole, r, hwhole, hr, hmsg'.trans hmsg.symm, herr, hnil.trans hleft.symm⟩
  refine ⟨hsuff, fun htag => ⟨?_, hsuff⟩⟩
  rintro ⟨w, r, hw, hr, hsame, herr, -⟩
  obtain rfl : w = whole := Option.some.inj (hw.symm.trans hwhole)
  by_contra hcuts
  rcases feed_of_not_cutsHarmless cb hP hcb htag hlen hbuf (g := []) hchunks hcuts hr
    with hlt | hne
  · rw [hsame, hmsg] at hlt
    exact absurd hlt (by simp [messages])
  · exact hne herr

end Codec

/-- The tag of the program is refused as a length. -/
theorem tagOutOfRange_rpcCodec : rpcCodec.TagOutOfRange := by
  refine ⟨by decide, by decide, Or.inl ?_⟩
  decide +kernel

/-- A request that arrives five bytes first, with a tag that is refused as a length. -/
theorem chunkingInvisible_putRequest :
    rpcCodec.TagOutOfRange ∧
      rpcCodec.ChunkingInvisible plainCallbacks () [rpcCodec.wireFrame putRequest].flatten
        [(rpcCodec.wireFrame putRequest).take 5, (rpcCodec.wireFrame putRequest).drop 5] := by
  refine ⟨tagOutOfRange_rpcCodec, ((Codec.chunkingInvisible_iff plainCallbacks rpcCodec_lawful rfl
    () (.cons isFrame_putRequest .nil) (by decide +kernel) (by decide +kernel)
    (by decide +kernel)).2 tagOutOfRange_rpcCodec).mpr ?_⟩
  rintro pre suf hpre hcut
  match pre, hpre, hcut with
  | [_], _, hcut =>
    obtain ⟨rfl, -⟩ := List.cons.inj hcut
    decide +kernel
  | [_, _], _, hcut =>
    obtain ⟨rfl, hcut'⟩ := List.cons.inj hcut
    obtain ⟨rfl, -⟩ := List.cons.inj hcut'
    decide +kernel

/-- A request that arrives twelve bytes first: the second call reads the tag as a length. -/
theorem not_chunkingInvisible_putRequest :
    rpcCodec.IsFrame putRequest (rpcCodec.wireFrame putRequest) ∧
      beNat (rpcCodec.wireFrame putRequest) ≤ maxMessageLen ∧
      (rpcCodec.wireFrame putRequest).length < 4294967296 ∧
      [(rpcCodec.wireFrame putRequest).take 12,
        (rpcCodec.wireFrame putRequest).drop 12].flatten = rpcCodec.wireFrame putRequest ∧
      ¬ rpcCodec.ChunkingInvisible plainCallbacks () (rpcCodec.wireFrame putRequest)
        [(rpcCodec.wireFrame putRequest).take 12, (rpcCodec.wireFrame putRequest).drop 12] := by
  refine ⟨isFrame_putRequest, by decide +kernel, by decide +kernel, by decide +kernel, ?_⟩
  rintro ⟨whole, r, -, hr, -, herr, -⟩
  have hrun : (rpcCodec.feed plainCallbacks ⟨[], (), []⟩
      [(rpcCodec.wireFrame putRequest).take 12, (rpcCodec.wireFrame putRequest).drop 12]).map
        (fun r => errors r.trace) = some [.invalidLength] := by decide +kernel
  rw [hr, Option.map_some, herr] at hrun
  exact absurd hrun (by simp)

end MRpc
