import MRpc.Codec.RoundTrip
import MRpc.Lib.Machine

/-!
# Sequences of sends

`ProtobufCodecLite::send` builds a frame in a buffer of its own and appends that buffer to the
write buffer of the connection. A failure of `fillEmptyBuffer` is logged, and the buffer is appended
all the same, with whatever `fillEmptyBuffer` had put into it.

Here the sends on one connection are a run of a machine whose state is the write buffer. A run
queues whole frames exactly when no send of it *tears* its frame: the tag was added, a later call
of `fillEmptyBuffer` failed, and the remains were appended.

## Main definitions

* `Codec.SendCall`, `Codec.sendStep`: a send with the outcomes of its `evbuffer` calls, and what it
  does to the write buffer.
* `Codec.WholeFrames`: the sends of a run are all-or-nothing, and what they queue is a
  concatenation of frames.
* `Codec.Tears`: the sends that leave a fragment.

## Main results

* `Codec.fillEmptyBuffer_cases`: what `fillEmptyBuffer` leaves at each of its exits.
* `Codec.wholeFrames_iff_not_tears`: a run queues whole frames exactly when no send tears.
-/

namespace MRpc

open FixedWidth

namespace Codec

variable {Msg : Type}

/-- A call of `send`, with the outcomes of the `evbuffer` calls that it makes and the chains in
which libevent stores its buffer. -/
structure SendCall (Msg : Type) where
  layout : ChainLayout
  results : EvResults
  message : Msg

variable (c : Codec Msg)

/-- A call of `send` on a write buffer. -/
def sendStep (writeBuf : Bytes) (s : SendCall Msg) : Option Bytes :=
  c.send s.layout s.results writeBuf s.message

/-! ### Statement -/

/-- A send appends the frame of its message or leaves the write buffer alone. -/
def AllOrNothing (before : Bytes) (s : SendCall Msg) (after : Bytes) : Prop :=
  after = before ∨ ∃ fr, c.IsFrame s.message fr ∧ after = before ++ fr

/-- Every send of a run from `w` to `w'` is all-or-nothing, and what the run has queued is a
concatenation of frames. -/
def WholeFrames (w : Bytes) (ss : List (SendCall Msg)) (w' : Bytes) : Prop :=
  Machine.EachStep c.sendStep c.AllOrNothing w ss ∧
    ∃ frs : List Bytes, (∀ fr ∈ frs, ∃ m, c.IsFrame m fr) ∧ w' = w ++ frs.flatten

/-- The outcomes with which a send appends a fragment: after the tag was added, the checksum or the
length could not be, and the buffer, not empty by then, is appended. -/
def Tears (s : SendCall Msg) : Prop :=
  s.results.addTag = true ∧ s.results.addBuffer = true ∧
    ((s.results.addChecksum = false ∧ c.tag ++ c.proto.serialize s.message ≠ []) ∨
      (s.results.addChecksum = true ∧ s.results.prependLen = false))

/-! ### One send -/

/-- The checksum field that `fillEmptyBuffer` writes. -/
def checksumField (L : ChainLayout) (m : Msg) : Bytes :=
  hostToNetwork32 (checksum (L.chains (c.tag ++ c.proto.serialize m))
    (int32 (int32 (c.proto.serialize m).length + c.tag.length)))

variable {c}

/-- The exits of `fillEmptyBuffer` on an empty buffer: no tag, the abort of
`ByteSizeConsistencyError`, no checksum, no length, and the frame. -/
theorem fillEmptyBuffer_cases (s : SendCall Msg) :
    (s.results.addTag = false ∧
      c.fillEmptyBuffer s.layout s.results [] s.message = some (-1, [])) ∨
    (s.results.addTag = true ∧
      (c.fillEmptyBuffer s.layout s.results [] s.message = none ∨
        (s.results.addChecksum = false ∧
          c.fillEmptyBuffer s.layout s.results [] s.message =
            some (-1, c.tag ++ c.proto.serialize s.message)) ∨
        (s.results.addChecksum = true ∧ s.results.prependLen = false ∧
          c.fillEmptyBuffer s.layout s.results [] s.message =
            some (-1, c.tag ++ c.proto.serialize s.message ++
              c.checksumField s.layout s.message)) ∨
        (s.results.addChecksum = true ∧ s.results.prependLen = true ∧ ∃ fr,
          c.IsFrame s.message fr ∧
          c.fillEmptyBuffer s.layout s.results [] s.message = some (0, fr)))) := by
  obtain ⟨L, ⟨_ | _, sumOk, lenOk, bufOk⟩, m⟩ := s
  · exact Or.inl ⟨rfl, rfl⟩
  refine Or.inr ⟨rfl, ?_⟩
  by_cases hsize : (c.proto.serialize m).length = uint32 (c.proto.byteSize m)
  · refine Or.inr ?_
    rcases sumOk with _ | _
    · refine Or.inl ⟨rfl, ?_⟩
      simp [fillEmptyBuffer, evbufferAdd, serializeToBuffer, hsize]
    rcases lenOk with _ | _
    · refine Or.inr (Or.inl ⟨rfl, rfl, ?_⟩)
      simp [fillEmptyBuffer, evbufferAdd, evbufferPrepend, serializeToBuffer, hsize, checksumField]
    · have hall := fillEmptyBuffer_allOk (c := c) L m
      rw [if_neg (not_not_intro hsize)] at hall
      exact Or.inr (Or.inr ⟨rfl, rfl, _, ⟨L, hall⟩, hall⟩)
  · refine Or.inl ?_
    simp [fillEmptyBuffer, evbufferAdd, serializeToBuffer, hsize]

/-- A fragment that is shorter than the frame of the message and not empty is neither the frame nor
nothing. -/
theorem not_allOrNothing_append {w frag : Bytes} {s : SendCall Msg} (hne : frag ≠ [])
    (hlen : frag.length < c.tag.length + (c.proto.serialize s.message).length + 8) :
    ¬ c.AllOrNothing w s (w ++ frag) := by
  rintro (hsame | ⟨fr, hfr, heq⟩)
  · exact hne (List.append_right_eq_self.mp hsame)
  · rw [List.append_cancel_left heq, hfr.length_eq] at hlen
    omega

/-- A send is all-or-nothing exactly when it does not tear its frame. -/
theorem allOrNothing_iff_not_tears {w w' : Bytes} {s : SendCall Msg}
    (h : c.sendStep w s = some w') : c.AllOrNothing w s w' ↔ ¬ c.Tears s := by
  rw [sendStep, send] at h
  rcases fillEmptyBuffer_cases (c := c) s with ⟨htag, hfill⟩ | ⟨htag, hfill | ⟨hsum, hfill⟩ |
    ⟨hsum, hlen, hfill⟩ | ⟨hsum, hlen, fr, hfr, hfill⟩⟩ <;>
    rw [hfill] at h <;> simp only [Option.some.injEq, reduceCtorEq] at h
  · -- The tag could not be added: an empty buffer is appended.
    refine iff_of_true (Or.inl ?_) fun ht => by simp [ht.1] at htag
    rw [← h, evbufferAdd]
    split_ifs <;> simp
  all_goals
    rcases hbuf : s.results.addBuffer with _ | _ <;>
      simp only [evbufferAdd, hbuf, ↓reduceIte, Bool.false_eq_true] at h
    · exact iff_of_true (Or.inl h.symm) fun ht => by simp [ht.2.1] at hbuf
  · by_cases hnil : c.tag ++ c.proto.serialize s.message = []
    · refine iff_of_true (Or.inl ?_) fun ht => ?_
      · rw [← h, hnil, List.append_nil]
      · rcases ht.2.2 with ⟨-, hne⟩ | ⟨hsum', -⟩
        · exact hne hnil
        · simp [hsum] at hsum'
    · refine iff_of_false ?_ (not_not_intro ⟨htag, hbuf, Or.inl ⟨hsum, hnil⟩⟩)
      rw [← h]
      exact not_allOrNothing_append hnil (by rw [List.length_append]; omega)
  · refine iff_of_false ?_ (not_not_intro ⟨htag, hbuf, Or.inr ⟨hsum, hlen⟩⟩)
    rw [← h]
    refine not_allOrNothing_append (List.ne_nil_of_length_pos ?_) ?_ <;>
      · simp only [List.length_append, checksumField, length_hostToNetwork32]
        omega
  · refine iff_of_true (Or.inr ⟨fr, hfr, h.symm⟩) fun ht => ?_
    rcases ht.2.2 with ⟨hsum', -⟩ | ⟨-, hlen'⟩
    · simp [hsum] at hsum'
    · simp [hlen] at hlen'

/-! ### A run of sends -/

/-- Sends that are all-or-nothing queue a concatenation of frames. -/
theorem exists_frames {w w' : Bytes} {ss : List (SendCall Msg)}
    (h : Machine.run c.sendStep w ss = some w')
    (hall : Machine.EachStep c.sendStep c.AllOrNothing w ss) :
    ∃ frs : List Bytes, (∀ fr ∈ frs, ∃ m, c.IsFrame m fr) ∧ w' = w ++ frs.flatten := by
  induction ss generalizing w with
  | nil =>
    obtain rfl : w = w' := Option.some.inj h
    exact ⟨[], by simp, by simp⟩
  | cons s ss ih =>
    obtain ⟨u, hu, hrun⟩ := Option.bind_eq_some_iff.mp h
    obtain ⟨hs, hss⟩ := (Machine.eachStep_cons hu).mp hall
    obtain ⟨frs, hfrs, rfl⟩ := ih hrun hss
    rcases hs with rfl | ⟨fr, hfr, rfl⟩
    · exact ⟨frs, hfrs, rfl⟩
    · refine ⟨fr :: frs, List.forall_mem_cons.mpr ⟨⟨s.message, hfr⟩, hfrs⟩, ?_⟩
      rw [List.flatten_cons, List.append_assoc]

/-- **Frames are all-or-nothing where no send tears.** In a run of sends on a connection, each send
appends the frame of its message or nothing, and the bytes that the run queues are a concatenation
of frames, exactly when no send of the run fails in `fillEmptyBuffer` behind the tag and then
appends what there is. -/
theorem wholeFrames_iff_not_tears {w w' : Bytes} {ss : List (SendCall Msg)}
    (h : Machine.run c.sendStep w ss = some w') :
    c.WholeFrames w ss w' ↔ ∀ s ∈ ss, ¬ c.Tears s := by
  have hiff : Machine.EachStep c.sendStep c.AllOrNothing w ss ↔ ∀ s ∈ ss, ¬ c.Tears s :=
    Machine.eachStep_iff_forall (Q := c.AllOrNothing) (P := fun s => ¬ c.Tears s)
      (fun _ _ _ hs => allOrNothing_iff_not_tears hs) h
  exact ⟨fun H => hiff.mp H.1, fun H => ⟨hiff.mpr H, exists_frames h (hiff.mpr H)⟩⟩

end Codec

/-- A send of `putRequest` in which the length cannot be put in front. -/
def headlessSend : Codec.SendCall RpcMessage := ⟨.single, ⟨true, true, false, true⟩, putRequest⟩

/-- A send of `putRequest` in which every call succeeds. -/
def wholeSend : Codec.SendCall RpcMessage := ⟨.single, .allOk, putRequest⟩

theorem exists_run_wholeSend :
    ∃ w, Machine.run rpcCodec.sendStep [] [wholeSend] = some w ∧
      rpcCodec.WholeFrames [] [wholeSend] w := by
  obtain ⟨w, hw⟩ : ∃ w, Machine.run rpcCodec.sendStep [] [wholeSend] = some w :=
    Option.isSome_iff_exists.mp (by decide +kernel)
  exact ⟨w, hw, (Codec.wholeFrames_iff_not_tears hw).mpr (by simp [wholeSend, Codec.Tears,
    EvResults.allOk])⟩

/-- The send without a length in front queues bytes that are not a frame. -/
theorem not_wholeFrames_headlessSend :
    ∃ w, Machine.run rpcCodec.sendStep [] [headlessSend] = some w ∧
      ¬ rpcCodec.WholeFrames [] [headlessSend] w := by
  obtain ⟨w, hw⟩ : ∃ w, Machine.run rpcCodec.sendStep [] [headlessSend] = some w :=
    Option.isSome_iff_exists.mp (by decide +kernel)
  refine ⟨w, hw, fun H => ?_⟩
  obtain ⟨hs, -⟩ := H
  have hone : rpcCodec.sendStep [] headlessSend = some w := by
    rwa [← List.nil_append [headlessSend], Machine.run_concat] at hw
  exact (Codec.allOrNothing_iff_not_tears hone).mp (hs [] _ [] [] w rfl rfl hone)
    ⟨rfl, rfl, Or.inr ⟨rfl, rfl⟩⟩

end MRpc
