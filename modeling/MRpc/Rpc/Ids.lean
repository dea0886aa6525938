import MRpc.Lib.Entries
import MRpc.Lib.Machine
import MRpc.Rpc.Dispatch

/-!
# The ids of calls

The counter `_id` is a static `int`, so all channels of a process share it and it wraps around after
`2 ^ 32` calls, while the tables of outstanding calls are keyed by 64-bit ids. Here the calls of a
process are numbered from `1` over all its channels; the call with number `n` gets the id
`int32 n`. Its id is fresh in the table of its channel, and not `0`, exactly when `n` is no multiple
of `2 ^ 32` and no call of the channel with a number that differs from `n` by such a multiple is
unanswered.

The calls that a closure issues while an answer is handled come after the answer has left the
table, so they are operations of their own here (`Process.exists_onResponse_nil`).

## Main definitions

* `Channels`, `ChannelOp`, `Channels.step`: a process with any number of channels.
* `Channels.StoresFresh`: the id of a call is not outstanding and not `0`.
* `Unanswered`: the calls that no `RESPONSE` has come for, by their numbers.
* `NoClash`: the condition on the numbers.

## Main results

* `Channels.numbered_of_run`: the counter and the tables after a run.
* `Channels.eachStep_storesFresh_iff`: the ids of a run are fresh exactly when no numbers clash.
-/

namespace MRpc

open FixedWidth History Machine

variable {ι Msg : Type}

/-- A `CallMethod` on a channel, or a `RESPONSE` that comes on it. -/
inductive ChannelOp (ι Msg : Type)
  | callMethod (i : ι) (call : Call Msg)
  | response (i : ι) (m : RpcMessage)

/-! ### Numbers of calls -/

/-- The operation is a `CallMethod`. -/
def ChannelOp.isCall : ChannelOp ι Msg → Bool
  | .callMethod _ _ => true
  | .response _ _ => false

/-- The number of `CallMethod`s in the process, over all channels. -/
def callNumber (ops : List (ChannelOp ι Msg)) : Nat := ops.countP ChannelOp.isCall

/-- The call with number `n` was made on channel `i`, and no `RESPONSE` with its id has come on the
channel since. -/
def Unanswered (ops : List (ChannelOp ι Msg)) (i : ι) (n : Nat) : Prop :=
  ∃ before call after, ops = before ++ .callMethod i call :: after ∧ callNumber before + 1 = n ∧
    ∀ m, .response i m ∈ after → m.idInt64 ≠ int32 n

/-- The next call has a number that is no multiple of `2 ^ 32` and differs by no multiple of
`2 ^ 32` from that of an unanswered call of its channel. -/
def NoClash (before : List (ChannelOp ι Msg)) : ChannelOp ι Msg → Prop
  | .callMethod i _ => (callNumber before + 1) % 4294967296 ≠ 0 ∧
      ∀ n, Unanswered before i n → n % 4294967296 ≠ (callNumber before + 1) % 4294967296
  | .response _ _ => True

theorem callNumber_concat (ops : List (ChannelOp ι Msg)) (op : ChannelOp ι Msg) :
    callNumber (ops ++ [op]) = callNumber ops + op.isCall.toNat := by
  rw [callNumber, List.countP_append, List.countP_singleton]
  cases op.isCall <;> rfl

theorem unanswered_concat {ops : List (ChannelOp ι Msg)} {op : ChannelOp ι Msg} {i : ι} {n : Nat} :
    Unanswered (ops ++ [op]) i n ↔
      (∃ call, op = .callMethod i call ∧ callNumber ops + 1 = n) ∨
        Unanswered ops i n ∧ ∀ m, op = .response i m → m.idInt64 ≠ int32 n := by
  constructor
  · rintro ⟨before, call, after, heq, hn, hafter⟩
    rcases concat_eq_append_cons heq with ⟨rfl, rfl, -⟩ | ⟨mid, rfl, rfl⟩
    · exact Or.inl ⟨call, rfl, hn⟩
    · refine Or.inr ⟨⟨before, call, mid, rfl, hn, fun m hm => hafter m (by simp [hm])⟩, ?_⟩
      rintro m rfl
      exact hafter m (by simp)
  · rintro (⟨call, rfl, hn⟩ | ⟨⟨before, call, after, rfl, hn, hafter⟩, hop⟩)
    · exact ⟨ops, call, [], rfl, hn, by simp⟩
    · refine ⟨before, call, after ++ [op], by simp, hn, fun m hm => ?_⟩
      rcases List.mem_append.mp hm with hm | hm
      · exact hafter m hm
      · exact hop m (List.mem_singleton.mp hm).symm

theorem callNumber_append (ops ops' : List (ChannelOp ι Msg)) :
    callNumber (ops ++ ops') = callNumber ops + callNumber ops' :=
  List.countP_append

/-- Numbers do not clash in a run of fewer than `2 ^ 32` calls. -/
theorem always_noClash_of_lt {ops : List (ChannelOp ι Msg)} (h : callNumber ops < 4294967296) :
    Always NoClash ops := by
  rintro before op after rfl
  rcases op with ⟨i, call⟩ | ⟨i, m⟩
  · have hnext : callNumber before + 1 < 4294967296 := by
      rw [callNumber_append, callNumber, callNumber, List.countP_cons_of_pos rfl] at h
      rw [callNumber]
      omega
    rw [NoClash, Nat.mod_eq_of_lt hnext]
    refine ⟨Nat.succ_ne_zero _, ?_⟩
    rintro n ⟨earlier, call', later, rfl, rfl, -⟩
    rw [callNumber_append, callNumber, callNumber, List.countP_cons_of_pos rfl] at hnext ⊢
    rw [Nat.mod_eq_of_lt (by omega)]
    omega
  · trivial

/-! ### The arithmetic of ids -/

/-- The id that follows the one of the call with number `n`. -/
theorem int32_succ (n : Nat) : int32 (int32 n + 1) = int32 (n + 1 : Nat) := by
  simp only [int32]
  omega

theorem int32_natCast_eq_iff {a b : Nat} :
    int32 a = int32 b ↔ a % 4294967296 = b % 4294967296 := by
  simp only [int32]
  omega

theorem int32_natCast_eq_zero_iff {n : Nat} : int32 n = 0 ↔ n % 4294967296 = 0 := by
  simp only [int32]
  omega

/-! ### Answers -/

namespace Process

/-- A closure leaves the state to the calls that it issues. -/
theorem complete_fst (p : Process Msg) (m : RpcMessage) (nested : List (Call Msg))
    (out : OutstandingCall) :
    (p.complete m nested out).1 =
      if out.response.isSome ∧ out.done.isSome then (p.callMethods nested).1 else p := by
  rw [complete]
  rcases out with ⟨_ | response, _ | done⟩ <;> rfl

theorem onResponse_cases {p q : Process Msg} {m : RpcMessage} {nested : List (Call Msg)}
    {effects : List (Effect Msg)} (h : p.onResponse m nested = .ok (q, effects)) :
    (m.hasResponse || m.hasError) ∧
      ((p.channel.outstandings[m.idInt64]? = none ∧ q = p) ∨
        ∃ out, p.channel.outstandings[m.idInt64]? = some out ∧
          q = ((p.forget m.idInt64).complete m nested out).1) := by
  rw [onResponse] at h
  split_ifs at h with hm
  refine ⟨hm, ?_⟩
  split at h
  case h_1 hnone =>
    obtain ⟨rfl, -⟩ := Prod.mk.inj (Except.ok.inj h)
    exact Or.inl ⟨hnone, rfl⟩
  case h_2 out hout => exact Or.inr ⟨out, hout, (congrArg Prod.fst (Except.ok.inj h)).symm⟩

/-- The calls that a closure issues while an answer is handled come after the answer. -/
theorem exists_onResponse_nil {p q : Process Msg} {m : RpcMessage} {nested : List (Call Msg)}
    {effects : List (Effect Msg)} (h : p.onResponse m nested = .ok (q, effects)) :
    ∃ q₀ effects₀, p.onResponse m [] = .ok (q₀, effects₀) ∧
      (q = q₀ ∨ q = (q₀.callMethods nested).1) := by
  obtain ⟨hm, ⟨hnone, rfl⟩ | ⟨out, hout, rfl⟩⟩ := onResponse_cases h
  · exact ⟨q, [], onResponse_of_none hm hnone [], Or.inl rfl⟩
  · refine ⟨p.forget m.idInt64, ((p.forget m.idInt64).complete m [] out).2, ?_, ?_⟩
    · rw [onResponse_of_some hm hout]
      refine congrArg Except.ok (Prod.ext ?_ rfl)
      rw [complete_fst, callMethods, ite_self]
    · rw [complete_fst]
      split_ifs
      · exact Or.inr rfl
      · exact Or.inl rfl

/-- An answer takes the entry with its id out of the table. -/
theorem onResponse_nil {p q : Process Msg} {m : RpcMessage} {effects : List (Effect Msg)}
    (h : p.onResponse m [] = .ok (q, effects)) :
    q.lastId = p.lastId ∧ ∀ id, q.channel.outstandings[id]? =
      if m.idInt64 = id then none else p.channel.outstandings[id]? := by
  obtain ⟨-, ⟨hnone, rfl⟩ | ⟨out, hout, rfl⟩⟩ := onResponse_cases h
  · refine ⟨rfl, fun id => ?_⟩
    split_ifs with hid
    · rw [← hid, hnone]
    · rfl
  · rw [complete_fst, callMethods, ite_self]
    exact ⟨rfl, fun id => Entries.getElem?_erase ..⟩

end Process

/-! ### Runs -/

/-- The channels of a process and their static counter. -/
structure Channels (ι Msg : Type) where
  /-- `RpcChannel::_id`. -/
  lastId : Int
  channel : ι → RpcChannel Msg

namespace Channels

/-- New channels, bound to connections or not, in a process that has issued no call yet. -/
def init (conn : ι → Option Ptr) : Channels ι Msg := ⟨0, fun i => ⟨conn i, ∅, none⟩⟩

/-- One of the channels, with the counter. -/
def focus (s : Channels ι Msg) (i : ι) : Process Msg := ⟨s.lastId, s.channel i⟩

/-- The id under which a `CallMethod` stores its entry is not in the table, and not `0`. -/
def StoresFresh (s : Channels ι Msg) : ChannelOp ι Msg → Prop
  | .callMethod i call => ∀ id stored, .store id stored ∈ ((s.focus i).callMethod call).2 →
      (s.channel i).outstandings[id]? = none ∧ id ≠ 0
  | .response _ _ => True

/-- The counter is the number of calls, and the tables hold the ids of the unanswered calls. -/
structure Numbered (ops : List (ChannelOp ι Msg)) (s : Channels ι Msg) : Prop where
  lastId_eq : s.lastId = int32 (callNumber ops)
  mem_iff : ∀ i id, (s.channel i).outstandings[id]? ≠ none ↔
    ∃ n, Unanswered ops i n ∧ int32 n = id

theorem Numbered.init (conn : ι → Option Ptr) :
    Numbered [] (Channels.init conn : Channels ι Msg) where
  lastId_eq := (int32_natCast_eq_zero_iff.mpr rfl).symm
  mem_iff i id := by
    simp [Channels.init, Unanswered]

/-- The next id is fresh exactly when the next number does not clash. -/
theorem Numbered.storesFresh_iff {ops : List (ChannelOp ι Msg)} {s : Channels ι Msg}
    (H : Numbered ops s) (op : ChannelOp ι Msg) : s.StoresFresh op ↔ NoClash ops op := by
  rcases op with ⟨i, call⟩ | ⟨i, m⟩
  · have hid : int32 ((s.focus i).lastId + 1) = int32 (callNumber ops + 1 : Nat) := by
      rw [focus, H.lastId_eq, int32_succ]
    have hstore : ∀ id stored, .store id stored ∈ ((s.focus i).callMethod call).2 ↔
        id = int32 (callNumber ops + 1 : Nat) ∧ stored = call := by
      intro id stored
      rw [Process.callMethod, hid]
      simp
    have hfree : (s.channel i).outstandings[int32 (callNumber ops + 1 : Nat)]? = none ↔
        ∀ n, Unanswered ops i n → n % 4294967296 ≠ (callNumber ops + 1) % 4294967296 := by
      rw [← not_iff_not, ← ne_eq, H.mem_iff]
      simp only [int32_natCast_eq_iff, not_forall, ne_eq, not_not, exists_prop]
    simp only [StoresFresh, NoClash, hstore, and_imp]
    constructor
    · intro hfresh
      obtain ⟨hnone, hzero⟩ := hfresh _ call rfl rfl
      exact ⟨mt int32_natCast_eq_zero_iff.mpr hzero, hfree.mp hnone⟩
    · rintro ⟨hzero, hnone⟩ id stored rfl -
      exact ⟨hfree.mpr hnone, mt int32_natCast_eq_zero_iff.mp hzero⟩
  · exact Iff.rfl

variable [DecidableEq ι]

/-- The channels after a function has run on one of them. -/
def put (s : Channels ι Msg) (i : ι) (p : Process Msg) : Channels ι Msg :=
  ⟨p.lastId, Function.update s.channel i p.channel⟩

/-- One operation; a `RESPONSE` that trips an assertion ends the run. -/
def step (s : Channels ι Msg) : ChannelOp ι Msg → Option (Channels ι Msg)
  | .callMethod i call => some (s.put i ((s.focus i).callMethod call).1)
  | .response i m =>
    if m.type = .response then
      match (s.focus i).onRpcMessage (s.channel i).conn m [] 0 with
      | .ok (p, _) => some (s.put i p)
      | .error _ => none
    else none

/-! ### The tables after a run -/

variable {ops : List (ChannelOp ι Msg)} {s t : Channels ι Msg}

theorem put_channel (s : Channels ι Msg) (i : ι) (p : Process Msg) (j : ι) :
    (s.put i p).channel j = if j = i then p.channel else s.channel j :=
  Function.update_apply ..

theorem Numbered.callMethod (H : Numbered ops s) (i : ι) (call : Call Msg) :
    Numbered (ops ++ [.callMethod i call]) (s.put i ((s.focus i).callMethod call).1) := by
  have hid : int32 (s.lastId + 1) = int32 (callNumber ops + 1 : Nat) := by
    rw [H.lastId_eq, int32_succ]
  refine ⟨?_, fun j id => ?_⟩
  · rw [callNumber_concat]
    exact hid
  · simp only [unanswered_concat, reduceCtorEq, false_imp_iff, implies_true, and_true,
      or_and_right, exists_or, ← H.mem_iff j id, put_channel]
    split_ifs with hj
    · subst hj
      simp only [Process.callMethod, focus, hid, Entries.getElem?_insert]
      split_ifs with hnew
      · exact iff_of_true (by simp) (Or.inl ⟨_, ⟨call, rfl, rfl⟩, hnew⟩)
      · refine ⟨Or.inr, fun h => h.resolve_left ?_⟩
        rintro ⟨n, ⟨call', -, rfl⟩, hn⟩
        exact hnew hn
    · refine ⟨Or.inr, fun h => h.resolve_left ?_⟩
      rintro ⟨n, ⟨call', heq, -⟩, -⟩
      exact hj (ChannelOp.callMethod.inj heq).1.symm

theorem exists_onResponse_of_step {i : ι} {m : RpcMessage}
    (h : s.step (.response i m) = some t) :
    ∃ q effects, (s.focus i).onResponse m [] = .ok (q, effects) ∧ t = s.put i q := by
  rw [step] at h
  split_ifs at h with hm
  rw [Process.onRpcMessage_response hm] at h
  split at h
  case h_1 q effects hq => exact ⟨q, effects, hq, (Option.some.inj h).symm⟩
  case h_2 => cases h

theorem Numbered.response (H : Numbered ops s) {i : ι} {m : RpcMessage}
    (h : s.step (.response i m) = some t) : Numbered (ops ++ [.response i m]) t := by
  obtain ⟨q, effects, hq, rfl⟩ := exists_onResponse_of_step h
  obtain ⟨hlast, htable⟩ := Process.onResponse_nil hq
  refine ⟨?_, fun j id => ?_⟩
  · rw [callNumber_concat]
    exact hlast.trans H.lastId_eq
  · simp only [unanswered_concat, reduceCtorEq, false_and, exists_false, false_or, put_channel]
    split_ifs with hj
    · subst hj
      rw [htable]
      split_ifs with hid
      · refine iff_of_false (by simp) ?_
        rintro ⟨n, ⟨-, hanswer⟩, rfl⟩
        exact hanswer m rfl hid
      · rw [focus, H.mem_iff]
        refine exists_congr fun n => ⟨?_, fun ⟨⟨hn, _⟩, hnid⟩ => ⟨hn, hnid⟩⟩
        rintro ⟨hn, rfl⟩
        refine ⟨⟨hn, fun m' hm' => ?_⟩, rfl⟩
        obtain ⟨-, rfl⟩ := ChannelOp.response.inj hm'
        exact hid
    · rw [H.mem_iff]
      refine exists_congr fun n => ⟨?_, fun ⟨⟨hn, _⟩, hnid⟩ => ⟨hn, hnid⟩⟩
      rintro ⟨hn, rfl⟩
      exact ⟨⟨hn, fun m' hm' => absurd (ChannelOp.response.inj hm').1.symm hj⟩, rfl⟩

/-- The counter and the tables after a run. -/
theorem numbered_of_run {conn : ι → Option Ptr} (h : run step (init conn) ops = some s) :
    Numbered ops s := by
  induction ops using List.reverseRecOn generalizing s with
  | nil =>
    obtain rfl := Option.some.inj h
    exact .init conn
  | append_singleton ops op ih =>
    rw [run_concat] at h
    obtain ⟨u, hu, hstep⟩ := Option.bind_eq_some_iff.mp h
    rcases op with ⟨i, call⟩ | ⟨i, m⟩
    · obtain rfl := Option.some.inj hstep
      exact (ih hu).callMethod i call
    · exact (ih hu).response hstep

/-- **Ids are fresh as long as numbers do not clash.** In a run of calls and answers over any number
of channels, every call is stored under an id that is not outstanding on its channel and not `0`,
exactly when every call has a number that is no multiple of `2 ^ 32` and differs by no such multiple
from the number of an unanswered call of the same channel. -/
theorem eachStep_storesFresh_iff {conn : ι → Option Ptr} (h : run step (init conn) ops = some s) :
    EachStep step (fun s op _ => s.StoresFresh op) (init conn) ops ↔ Always NoClash ops :=
  eachStep_iff_always (fun _ op _ _ hrun _ => (numbered_of_run hrun).storesFresh_iff op) h

/-- Calls are possible in every state. -/
theorem exists_run_calls (conn : ι → Option Ptr) (i : ι) (call : Call Msg) (n : Nat) :
    ∃ s, run step (init conn) (List.replicate n (.callMethod i call)) = some s := by
  refine exists_run (fun op hop s => ?_) _
  obtain ⟨-, rfl⟩ := List.mem_replicate.mp hop
  exact ⟨_, rfl⟩

end Channels

theorem callNumber_replicate {ι Msg : Type} (i : ι) (call : Call Msg) (n : Nat) :
    callNumber (List.replicate n (.callMethod i call)) = n := by
  rw [callNumber, List.countP_replicate]
  rfl

/-- Two calls of `Put` on one channel and one on another. -/
theorem storesFresh_twoChannels :
    ∃ s, run Channels.step (Channels.init fun _ => some 1)
        [.callMethod true (putCall 10 11), .callMethod true (putCall 12 13),
          .callMethod false (putCall 14 15)] = some s ∧
      EachStep Channels.step (fun s op _ => s.StoresFresh op) (Channels.init fun _ => some 1)
        [.callMethod true (putCall 10 11), .callMethod true (putCall 12 13),
          .callMethod false (putCall 14 15)] := by
  exact ⟨_, rfl, (Channels.eachStep_storesFresh_iff rfl).mpr (always_noClash_of_lt (by decide))⟩

/-- The call with number `2 ^ 32` is stored under the id `0`. -/
theorem not_storesFresh_wrapped :
    ∃ s, run Channels.step (Channels.init fun _ => some 1)
        (List.replicate 4294967296 (.callMethod () (putCall 10 11))) = some s ∧
      ¬ EachStep Channels.step (fun s op _ => s.StoresFresh op) (Channels.init fun _ => some 1)
        (List.replicate 4294967296 (.callMethod () (putCall 10 11))) := by
  obtain ⟨s, hs⟩ := Channels.exists_run_calls (fun _ => some 1) () (putCall 10 11) 4294967296
  refine ⟨s, hs, fun H => ?_⟩
  obtain ⟨u, hu⟩ := Channels.exists_run_calls (fun _ => some 1) () (putCall 10 11) 4294967295
  have hfresh := H (List.replicate 4294967295 (.callMethod () (putCall 10 11))) _ [] u _
    List.replicate_succ' hu rfl
  have hclash := ((Channels.numbered_of_run hu).storesFresh_iff _).mp hfresh
  rw [NoClash, callNumber_replicate] at hclash
  exact hclash.1 rfl

end MRpc
