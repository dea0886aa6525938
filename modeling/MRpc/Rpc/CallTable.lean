import MRpc.Lib.Entries
import MRpc.Lib.History
import MRpc.Lib.Machine
import MRpc.Rpc.Dispatch

/-!
# The table of outstanding calls

One channel, its `CallMethod`s and any `RESPONSE`s of its peer. A call hands two objects to the
channel, the response object and the closure `done`; they wait in the table under the id of the
call and leave it on one of two ways, by the answer or by the destructor. The closure may issue
calls while the answer is handled.

The run keeps the history of what happened (`Entry`). A call is *pending* in a history when it was
issued and no `RESPONSE` with its id has come since. The table holds the pending calls, and this
carries everything else.

## Main definitions

* `TableState`, `Op`, `TableState.step`: the runs.
* `Pending`: issued and not answered since.
* `Ledger`: the invariant, with the objects that an answer in progress holds.
* `CallTableSafe`: what is proved of every run.

## Main results

* `Ledger.callMethod`, `Ledger.answer`: what one operation preserves.
* `callTable_safe`: every run of calls and answers is safe.
-/

namespace MRpc

open FixedWidth History Machine

variable {Msg : Type}

/-! ### Runs -/

/-- What happens on the channel: a `CallMethod`, a `RESPONSE` whose closure issues the calls
`nested` if it is run, or a `CallMethod` on another channel of the process. -/
inductive Op (Msg : Type)
  | callMethod (call : Call Msg)
  | response (m : RpcMessage) (nested : List (Call Msg))
  | otherCall

/-- The events of a run. -/
inductive Entry (Msg : Type)
  /-- A `RESPONSE` with this id is handled; its effects follow. -/
  | received (id : Int)
  | otherCall
  | effect (e : Effect Msg)

/-- A channel and its history. -/
structure TableState (Msg : Type) where
  process : Process Msg
  trace : List (Entry Msg)

namespace TableState

/-- A new channel in a process that has issued no call yet. -/
def init (conn : Ptr) : TableState Msg := ⟨⟨0, .new conn⟩, []⟩

/-- One operation; a `RESPONSE` that trips an assertion ends the run. -/
def step (s : TableState Msg) : Op Msg → Option (TableState Msg)
  | .callMethod call =>
    let (p, effects) := s.process.callMethod call
    some ⟨p, s.trace ++ effects.map .effect⟩
  | .response m nested =>
    if m.type = .response then
      match s.process.onRpcMessage s.process.channel.conn m nested 0 with
      | .ok (p, effects) => some ⟨p, s.trace ++ .received m.idInt64 :: effects.map .effect⟩
      | .error _ => none
    else none
  | .otherCall =>
    some ⟨{ s.process with lastId := int32 (s.process.lastId + 1) }, s.trace ++ [.otherCall]⟩

/-- The history with the destructor at its end. -/
def whole (s : TableState Msg) : List (Entry Msg) :=
  s.trace ++ s.process.channel.destructor.map .effect

end TableState

/-- The `RESPONSE`s that a peer may send: each carries a response or an error. -/
def Op.Admissible : Op Msg → Prop
  | .response m _ => m.type = .response ∧ (m.hasResponse ∨ m.hasError)
  | _ => True

/-! ### Reading a history -/

namespace Entry

/-- The call that the event issues on the channel, with its id. -/
@[simp] def issued? : Entry Msg → Option (Int × OutstandingCall)
  | .effect (.store id call) => some (id, call.out)
  | _ => none

/-- The closure that the event runs. -/
@[simp] def doneRun? : Entry Msg → Option Ptr
  | .effect (.runDone done) => some done
  | _ => none

/-- The response object that the event deletes. -/
@[simp] def deletedResponse? : Entry Msg → Option Ptr
  | .effect (.deleteResponse response) => some response
  | _ => none

/-- The closure that the event deletes without having run it. -/
@[simp] def deletedDone? : Entry Msg → Option Ptr
  | .effect (.deleteDone done) => some done
  | _ => none

/-- The event is a `CallMethod` of the process. -/
@[simp] def isCall : Entry Msg → Bool
  | .effect (.store _ _) => true
  | .otherCall => true
  | _ => false

end Entry

section Projections

variable (h : List (Entry Msg))

/-- The calls that were issued on the channel, with their ids. -/
def issued : List (Int × OutstandingCall) := h.filterMap Entry.issued?

/-- The closures that were run. -/
def doneRuns : List Ptr := h.filterMap Entry.doneRun?

/-- The response objects that were deleted. -/
def deletedResponses : List Ptr := h.filterMap Entry.deletedResponse?

/-- The closures that were deleted without being run. -/
def deletedDones : List Ptr := h.filterMap Entry.deletedDone?

/-- The number of `CallMethod`s in the process. -/
def callCount : Nat := h.countP Entry.isCall

/-- The response objects, or the closures, of the calls that were issued. -/
def handedOver (object : OutstandingCall → Option Ptr) : List Ptr :=
  (issued h).filterMap fun call => object call.2

end Projections

/-- A call with this id and these objects was issued, and no `RESPONSE` with the id has come
since. -/
def Pending (h : List (Entry Msg)) (id : Int) (out : OutstandingCall) : Prop :=
  Since (fun e => e.issued? = some (id, out)) (fun e => e ≠ .received id) h

/-- After `h`, the answer to a call with the closure `done` is being handled, and its content has
at most been parsed: the call was pending when the `RESPONSE` came. -/
def RanInTurn (h : List (Entry Msg)) (done : Ptr) : Prop :=
  ∃ before id out after, h = before ++ .received id :: after ∧ Pending before id out ∧
    out.done = some done ∧ ∀ e ∈ after, ∃ response data, e = .effect (.parseResponse response data)

/-- After `h`, the closure of the call with this response object was run last, and has at most
issued calls. -/
def DeletedInTurn (h : List (Entry Msg)) (response : Ptr) : Prop :=
  ∃ before id done after, h = before ++ .effect (.runDone done) :: after ∧
    (id, ⟨some response, some done⟩) ∈ issued before ∧
    ∀ e ∈ after, (∃ id call, e = .effect (.store id call)) ∨ ∃ conn m, e = .effect (.send conn m)

/-- Every call comes with a response object and a closure of its own. -/
structure FreshObjects (h : List (Entry Msg)) : Prop where
  nonNull : ∀ call ∈ issued h, call.2.response.isSome ∧ call.2.done.isSome
  nodup_responses : (handedOver h (·.response)).Nodup
  nodup_dones : (handedOver h (·.done)).Nodup

/-- What holds of a run that ends in `s` and is followed by the destructor. -/
structure CallTableSafe (s : TableState Msg) : Prop where
  /-- A closure is run at most once. -/
  nodup_doneRuns : (doneRuns s.whole).Nodup
  /-- A closure is run while the first `RESPONSE` to its call is handled. -/
  ranInTurn : Always (fun before e => ∀ done, e = .effect (.runDone done) → RanInTurn before done)
    s.whole
  /-- The table holds the calls that were not answered. -/
  outstanding_iff : ∀ id out, s.process.channel.outstandings[id]? = some out ↔
    Pending s.trace id out
  /-- An answer to no outstanding call changes nothing. -/
  unknown_id : ∀ m nested, m.type = .response → m.hasResponse ∨ m.hasError →
    s.process.channel.outstandings[m.idInt64]? = none →
    s.step (.response m nested) = some { s with trace := s.trace ++ [.received m.idInt64] }
  /-- The response object of every call is deleted once. -/
  deleted_once : ∀ call ∈ issued s.trace, ∀ response, call.2.response = some response →
    (deletedResponses s.whole).count response = 1
  /-- Before the destructor, it is deleted right after its closure. -/
  deletedInTurn : Always
    (fun before e => ∀ response, e = .effect (.deleteResponse response) →
      DeletedInTurn before response) s.trace
  /-- The destructor deletes the closures of the calls that were not answered, each once, and
  nothing else deletes a closure. -/
  mem_deletedDones : ∀ done, done ∈ deletedDones s.whole ↔
    ∃ id out, Pending s.trace id out ∧ out.done = some done
  nodup_deletedDones : (deletedDones s.whole).Nodup
  deletedDones_trace : deletedDones s.trace = []

theorem issued_append (h t : List (Entry Msg)) : issued (h ++ t) = issued h ++ issued t :=
  List.filterMap_append

theorem callCount_append (h t : List (Entry Msg)) :
    callCount (h ++ t) = callCount h + callCount t :=
  List.countP_append

section Concat

variable (h : List (Entry Msg)) (e : Entry Msg)

@[simp] theorem issued_concat : issued (h ++ [e]) = issued h ++ e.issued?.toList := by
  rw [issued, List.filterMap_append, List.filterMap_cons, List.filterMap_nil]
  cases e.issued? <;> rfl

@[simp] theorem doneRuns_concat : doneRuns (h ++ [e]) = doneRuns h ++ e.doneRun?.toList := by
  rw [doneRuns, List.filterMap_append, List.filterMap_cons, List.filterMap_nil]
  cases e.doneRun? <;> rfl

@[simp] theorem deletedResponses_concat :
    deletedResponses (h ++ [e]) = deletedResponses h ++ e.deletedResponse?.toList := by
  rw [deletedResponses, List.filterMap_append, List.filterMap_cons, List.filterMap_nil]
  cases e.deletedResponse? <;> rfl

@[simp] theorem deletedDones_concat :
    deletedDones (h ++ [e]) = deletedDones h ++ e.deletedDone?.toList := by
  rw [deletedDones, List.filterMap_append, List.filterMap_cons, List.filterMap_nil]
  cases e.deletedDone? <;> rfl

@[simp] theorem callCount_concat : callCount (h ++ [e]) = callCount h + e.isCall.toNat := by
  rw [callCount, List.countP_append, List.countP_singleton]
  cases e.isCall <;> rfl

@[simp] theorem handedOver_concat (object : OutstandingCall → Option Ptr) :
    handedOver (h ++ [e]) object =
      handedOver h object ++ (e.issued?.bind fun call => object call.2).toList := by
  rw [handedOver, issued_concat, List.filterMap_append]
  cases e.issued? with
  | none => rfl
  | some call => cases hobj : object call.2 <;> simp [hobj, handedOver]

end Concat

theorem pending_concat {h : List (Entry Msg)} {e : Entry Msg} {id : Int} {out : OutstandingCall} :
    Pending (h ++ [e]) id out ↔
      e.issued? = some (id, out) ∨ Pending h id out ∧ e ≠ .received id :=
  since_concat

theorem Pending.mem_issued {h : List (Entry Msg)} {id : Int} {out : OutstandingCall}
    (hp : Pending h id out) : (id, out) ∈ issued h := by
  obtain ⟨e, he, hissued⟩ := hp.exists_mem
  exact List.mem_filterMap.mpr ⟨e, he, hissued⟩

/-! ### The invariant -/

/-- The response objects, or the closures, in the table. -/
def RpcChannel.objects (ch : RpcChannel Msg) (object : OutstandingCall → Option Ptr) : List Ptr :=
  ch.outstandings.toList.filterMap fun entry => object entry.2

section Objects

variable {ch : RpcChannel Msg} {id : Int} {out : OutstandingCall}
  (object : OutstandingCall → Option Ptr)

theorem RpcChannel.objects_insert (h : ch.outstandings[id]? = none) :
    ({ ch with outstandings := ch.outstandings.insert id out }.objects object).Perm
      ((object out).toList ++ ch.objects object) := by
  refine ((Entries.toList_insert_perm h out).filterMap _).trans ?_
  rw [List.filterMap_cons]
  cases object out <;> exact .refl _

theorem RpcChannel.objects_erase (h : ch.outstandings[id]? = some out) :
    (ch.objects object).Perm ((object out).toList ++
      { ch with outstandings := ch.outstandings.erase id }.objects object) := by
  refine ((Entries.toList_perm_erase h).filterMap _).trans ?_
  rw [List.filterMap_cons]
  cases object out <;> exact .refl _

end Objects

/-- The books are balanced: every object that was handed over was released, is in the table, or is
one of the objects `responses` and `dones` that the answer in progress holds. -/
structure Ledger (responses dones : List Ptr) (s : TableState Msg) : Prop where
  lastId_eq : s.process.lastId = callCount s.trace
  id_bounds : ∀ call ∈ issued s.trace, 1 ≤ call.1 ∧ call.1 ≤ callCount s.trace
  outstanding_iff : ∀ id out, s.process.channel.outstandings[id]? = some out ↔
    Pending s.trace id out
  responses_perm :
    (deletedResponses s.trace ++ (responses ++ s.process.channel.objects (·.response))).Perm
      (handedOver s.trace (·.response))
  dones_perm : (doneRuns s.trace ++ (dones ++ s.process.channel.objects (·.done))).Perm
    (handedOver s.trace (·.done))
  ranInTurn : Always (fun before e => ∀ done, e = .effect (.runDone done) → RanInTurn before done)
    s.trace
  deletedInTurn : Always
    (fun before e => ∀ response, e = .effect (.deleteResponse response) →
      DeletedInTurn before response) s.trace
  deletedDones_trace : deletedDones s.trace = []

namespace Ledger

variable {s : TableState Msg} {responses dones : List Ptr}

theorem init (conn : Ptr) : Ledger [] [] (TableState.init conn : TableState Msg) where
  lastId_eq := rfl
  id_bounds := by simp [TableState.init, issued]
  outstanding_iff id out := by simp [TableState.init, RpcChannel.new, Pending, not_since_nil]
  responses_perm := .refl _
  dones_perm := .refl _
  ranInTurn := always_nil
  deletedInTurn := always_nil
  deletedDones_trace := rfl

/-- An event that enters no call and no answer, and releases at most objects that are held. -/
theorem emit {responses' dones' : List Ptr} {e : Entry Msg} (H : Ledger responses dones s)
    (hissued : e.issued? = none) (hcall : e.isCall = false) (hreceived : ∀ id, e ≠ .received id)
    (hkept : e.deletedDone? = none)
    (hresponses : e.deletedResponse?.toList ++ responses' = responses)
    (hdones : e.doneRun?.toList ++ dones' = dones)
    (hran : ∀ done, e = .effect (.runDone done) → RanInTurn s.trace done)
    (hdeleted : ∀ response, e = .effect (.deleteResponse response) →
      DeletedInTurn s.trace response) :
    Ledger responses' dones' { s with trace := s.trace ++ [e] } := by
  refine ⟨?_, ?_, fun id out => ?_, ?_, ?_, ?_, ?_, ?_⟩
  · rw [callCount_concat, hcall]
    exact H.lastId_eq
  · rw [issued_concat, hissued, callCount_concat, hcall]
    simpa using H.id_bounds
  · rw [pending_concat, H.outstanding_iff]
    simp [hissued, hreceived id, -Entry.issued?]
  · rw [deletedResponses_concat, handedOver_concat, hissued]
    have h := H.responses_perm
    rw [← hresponses] at h
    simpa only [Option.bind_none, Option.toList_none, List.append_nil, List.append_assoc] using h
  · rw [doneRuns_concat, handedOver_concat, hissued]
    have h := H.dones_perm
    rw [← hdones] at h
    simpa only [Option.bind_none, Option.toList_none, List.append_nil, List.append_assoc] using h
  · exact always_concat.mpr ⟨H.ranInTurn, hran⟩
  · exact always_concat.mpr ⟨H.deletedInTurn, hdeleted⟩
  · rw [deletedDones_concat, hkept, H.deletedDones_trace]
    rfl

theorem send (H : Ledger responses dones s) (conn : Option Ptr) (m : RpcMessage) :
    Ledger responses dones { s with trace := s.trace ++ [.effect (.send conn m)] } :=
  H.emit rfl rfl (by simp) rfl rfl rfl (by simp) (by simp)

theorem parseResponse (H : Ledger responses dones s) (response : Ptr) (data : Bytes) :
    Ledger responses dones
      { s with trace := s.trace ++ [.effect (.parseResponse response data)] } :=
  H.emit rfl rfl (by simp) rfl rfl rfl (by simp) (by simp)

theorem runDone {done : Ptr} (H : Ledger responses (done :: dones) s)
    (hturn : RanInTurn s.trace done) :
    Ledger responses dones { s with trace := s.trace ++ [.effect (.runDone done)] } :=
  H.emit rfl rfl (by simp) rfl rfl rfl (by simpa using hturn) (by simp)

theorem deleteResponse {response : Ptr} (H : Ledger (response :: responses) dones s)
    (hturn : DeletedInTurn s.trace response) :
    Ledger responses dones
      { s with trace := s.trace ++ [.effect (.deleteResponse response)] } :=
  H.emit rfl rfl (by simp) rfl rfl rfl (by simp) (by simpa using hturn)

/-- The id of the next call is fresh. -/
theorem outstandings_next (H : Ledger responses dones s) :
    s.process.channel.outstandings[(callCount s.trace + 1 : Int)]? = none := by
  rw [Option.eq_none_iff_forall_ne_some]
  intro out hout
  have hmem := ((H.outstanding_iff _ out).mp hout).mem_issued
  have hle := (H.id_bounds _ hmem).2
  dsimp only at hle
  omega

/-- Objects that are added to the table are objects that were handed over. -/
theorem perm_handOver {released held table table' handed new : List Ptr}
    (h : (released ++ (held ++ table)).Perm handed) (htable : table'.Perm (new ++ table)) :
    (released ++ (held ++ table')).Perm (handed ++ new) := by
  refine List.perm_iff_count.mpr fun x => ?_
  have h1 := h.count_eq x
  have h2 := htable.count_eq x
  simp only [List.count_append] at h1 h2 ⊢
  omega

/-- An event that releases no object leaves what was released, and when, as it was. -/
theorem releases_concat (H : Ledger responses dones s) {e : Entry Msg}
    (hran : ∀ done, e ≠ .effect (.runDone done))
    (hdeleted : ∀ response, e ≠ .effect (.deleteResponse response))
    (hkept : e.deletedDone? = none) :
    Always (fun before e => ∀ done, e = .effect (.runDone done) → RanInTurn before done)
        (s.trace ++ [e]) ∧
      Always (fun before e => ∀ response, e = .effect (.deleteResponse response) →
        DeletedInTurn before response) (s.trace ++ [e]) ∧
      deletedDones (s.trace ++ [e]) = [] := by
  refine ⟨always_concat.mpr ⟨H.ranInTurn, fun done he => absurd he (hran done)⟩,
    always_concat.mpr ⟨H.deletedInTurn, fun response he => absurd he (hdeleted response)⟩, ?_⟩
  rw [deletedDones_concat, hkept, H.deletedDones_trace]
  rfl

/-- A call is entered under a fresh id. -/
theorem callMethod (H : Ledger responses dones s) (hcount : callCount s.trace < 2147483647)
    (call : Call Msg) :
    Ledger responses dones ⟨(s.process.callMethod call).1,
      s.trace ++ (s.process.callMethod call).2.map .effect⟩ := by
  have hid : int32 (s.process.lastId + 1) = (callCount s.trace + 1 : Int) := by
    rw [H.lastId_eq, int32_of_bounds (by omega) (by omega)]
  have hfresh := H.outstandings_next
  have hsplit (conn : Option Ptr) (m : RpcMessage) (e : Effect Msg) :
      s.trace ++ [Entry.effect e, .effect (.send conn m)] =
        (s.trace ++ [.effect e]) ++ [.effect (.send conn m)] := by simp
  simp only [Process.callMethod, List.map_cons, List.map_nil, hid]
  rw [hsplit]
  refine send (s := ⟨_, s.trace ++ [_]⟩) ?_ _ _
  obtain ⟨hran, hdeleted, hkept⟩ := H.releases_concat
    (e := .effect (.store (callCount s.trace + 1) call)) (by simp) (by simp) rfl
  refine ⟨?_, ?_, fun id out => ?_, ?_, ?_, hran, hdeleted, hkept⟩
  · simp
  · intro c hc
    simp only [issued_concat, Entry.issued?, Option.toList_some, List.mem_append,
      List.mem_singleton, callCount_concat, Entry.isCall, Bool.toNat_true] at hc ⊢
    rcases hc with hc | rfl
    · have := H.id_bounds c hc
      omega
    · dsimp only
      omega
  · rw [pending_concat, Entries.getElem?_insert]
    split_ifs with h
    · subst h
      have hnot : ¬ Pending s.trace (callCount s.trace + 1) out := by
        rw [← H.outstanding_iff, hfresh]
        simp
      simp [hnot, eq_comm]
    · simp [H.outstanding_iff, Ne.symm h, eq_comm]
  · simpa using perm_handOver H.responses_perm (RpcChannel.objects_insert (·.response) hfresh)
  · simpa using perm_handOver H.dones_perm (RpcChannel.objects_insert (·.done) hfresh)

theorem otherCall (H : Ledger responses dones s) (hcount : callCount s.trace < 2147483647) :
    Ledger responses dones ⟨{ s.process with lastId := int32 (s.process.lastId + 1) },
      s.trace ++ [.otherCall]⟩ := by
  obtain ⟨hran, hdeleted, hkept⟩ := H.releases_concat (e := .otherCall) (by simp) (by simp) rfl
  refine ⟨?_, ?_, fun id out => ?_, ?_, ?_, hran, hdeleted, hkept⟩
  · rw [H.lastId_eq, int32_of_bounds (by omega) (by omega)]
    simp
  · intro call hcall
    have := H.id_bounds call (by simpa using hcall)
    simp only [callCount_concat, Entry.isCall, Bool.toNat_true]
    omega
  · rw [pending_concat]
    simpa using H.outstanding_iff id out
  · simpa using H.responses_perm
  · simpa using H.dones_perm

/-- An answer to no outstanding call. -/
theorem received_unknown (H : Ledger responses dones s) {id : Int}
    (hid : s.process.channel.outstandings[id]? = none) :
    Ledger responses dones { s with trace := s.trace ++ [.received id] } := by
  obtain ⟨hran, hdeleted, hkept⟩ := H.releases_concat (e := .received id) (by simp) (by simp) rfl
  refine ⟨?_, ?_, fun i out => ?_, ?_, ?_, hran, hdeleted, hkept⟩
  · simpa using H.lastId_eq
  · simpa using H.id_bounds
  · rw [pending_concat]
    have hne : Pending s.trace i out → id ≠ i := by
      rintro hp rfl
      rw [← H.outstanding_iff, hid] at hp
      cases hp
    simpa [H.outstanding_iff] using hne
  · simpa using H.responses_perm
  · simpa using H.dones_perm

/-- An answer takes the objects of its call out of the table. -/
theorem received (H : Ledger [] [] s) {id : Int} {out : OutstandingCall}
    (hout : s.process.channel.outstandings[id]? = some out) :
    Ledger out.response.toList out.done.toList
      ⟨s.process.forget id, s.trace ++ [.received id]⟩ := by
  obtain ⟨hran, hdeleted, hkept⟩ := H.releases_concat (e := .received id) (by simp) (by simp) rfl
  refine ⟨?_, ?_, fun i out' => ?_, ?_, ?_, hran, hdeleted, hkept⟩
  · simpa [Process.forget] using H.lastId_eq
  · simpa using H.id_bounds
  · rw [pending_concat, Process.forget, Entries.getElem?_erase]
    split_ifs with h
    · simp [h]
    · simpa [h] using H.outstanding_iff i out'
  · have hperm := (RpcChannel.objects_erase (·.response) hout).append_left
      (deletedResponses s.trace)
    simpa [Process.forget] using hperm.symm.trans H.responses_perm
  · have hperm := (RpcChannel.objects_erase (·.done) hout).append_left (doneRuns s.trace)
    simpa [Process.forget] using hperm.symm.trans H.dones_perm

theorem callMethods (H : Ledger responses dones s) (calls : List (Call Msg))
    (hcount : callCount (s.trace ++ (s.process.callMethods calls).2.map .effect) < 2147483647) :
    Ledger responses dones ⟨(s.process.callMethods calls).1,
      s.trace ++ (s.process.callMethods calls).2.map .effect⟩ := by
  induction calls generalizing s with
  | nil => simpa [Process.callMethods] using H
  | cons call calls ih =>
    rw [Process.callMethods_cons, List.map_append, ← List.append_assoc] at hcount ⊢
    have hle := callCount_append s.trace ((s.process.callMethod call).2.map .effect)
    rw [callCount_append] at hcount
    refine ih (s := ⟨_, _⟩) (H.callMethod (by omega) call) ?_
    rw [callCount_append]
    exact hcount

/-- An answer to an outstanding call: its content is parsed, its closure is run, and its response
object is deleted. -/
theorem answer (H : Ledger [] [] s) {m : RpcMessage} {nested : List (Call Msg)}
    {response done : Ptr}
    (hout : s.process.channel.outstandings[m.idInt64]? = some ⟨some response, some done⟩)
    (hcount : callCount (s.trace ++ .received m.idInt64 ::
      (((s.process.forget m.idInt64).complete m nested ⟨some response, some done⟩).2.map .effect)) <
        2147483647) :
    Ledger [] [] ⟨((s.process.forget m.idInt64).complete m nested ⟨some response, some done⟩).1,
      s.trace ++ .received m.idInt64 ::
        ((s.process.forget m.idInt64).complete m nested
          ⟨some response, some done⟩).2.map .effect⟩ := by
  set p := s.process.forget m.idInt64 with hp
  set parsed : List (Effect Msg) :=
    if m.hasResponse then [.parseResponse response m.response] else [] with hparsed
  have hcomplete : p.complete m nested ⟨some response, some done⟩ =
      ((p.callMethods nested).1, parsed ++ .runDone done :: (p.callMethods nested).2 ++
        [.deleteResponse response]) := rfl
  -- The history as it grows: the answer, its content, the closure, the calls of the closure.
  set h₁ := s.trace ++ [Entry.received m.idInt64] with hh₁
  set h₂ := h₁ ++ parsed.map Entry.effect with hh₂
  set h₃ := h₂ ++ [Entry.effect (.runDone done)] with hh₃
  set h₄ := h₃ ++ (p.callMethods nested).2.map Entry.effect with hh₄
  have htrace : s.trace ++ .received m.idInt64 ::
      (p.complete m nested ⟨some response, some done⟩).2.map .effect =
        h₄ ++ [.effect (.deleteResponse response)] := by
    simp [hcomplete, hh₄, hh₃, hh₂, hh₁]
  rw [htrace] at hcount ⊢
  rw [callCount_append] at hcount
  have hpending : Pending s.trace m.idInt64 ⟨some response, some done⟩ :=
    (H.outstanding_iff _ _).mp hout
  have H₁ : Ledger [response] [done] ⟨p, h₁⟩ := H.received hout
  have H₂ : Ledger [response] [done] ⟨p, h₂⟩ := by
    rw [hh₂, hparsed]
    split_ifs
    · exact H₁.parseResponse response m.response
    · simpa using H₁
  have H₃ : Ledger [response] [] ⟨p, h₃⟩ := by
    refine H₂.runDone ⟨s.trace, m.idInt64, _, parsed.map .effect, ?_, hpending, rfl, ?_⟩
    · simp [hh₂, hh₁]
    · rw [hparsed]
      split_ifs <;> simp
  have H₄ : Ledger [response] [] ⟨(p.callMethods nested).1, h₄⟩ :=
    H₃.callMethods nested (Nat.lt_of_le_of_lt (Nat.le_add_right _ _) hcount)
  refine H₄.deleteResponse ⟨h₂, m.idInt64, done, (p.callMethods nested).2.map .effect, ?_, ?_, ?_⟩
  · simp [hh₄, hh₃]
  · rw [hh₂, hh₁, List.append_assoc, issued_append, List.mem_append]
    exact Or.inl hpending.mem_issued
  · intro e he
    obtain ⟨effect, heffect, rfl⟩ := List.mem_map.mp he
    rcases Process.effect_callMethods heffect with ⟨id, call, rfl⟩ | ⟨conn, m, rfl⟩
    · exact Or.inl ⟨id, call, rfl⟩
    · exact Or.inr ⟨conn, m, rfl⟩

end Ledger

/-! ### Every run -/

theorem FreshObjects.left {h t : List (Entry Msg)} (H : FreshObjects (h ++ t)) :
    FreshObjects h := by
  have hsub (object : OutstandingCall → Option Ptr) :
      (handedOver h object).Sublist (handedOver (h ++ t) object) := by
    rw [handedOver, handedOver, issued_append, List.filterMap_append]
    exact List.sublist_append_left _ _
  refine ⟨fun call hcall => H.nonNull call ?_, H.nodup_responses.sublist (hsub _),
    H.nodup_dones.sublist (hsub _)⟩
  rw [issued_append, List.mem_append]
  exact Or.inl hcall

namespace TableState

variable {s t : TableState Msg} {op : Op Msg}

theorem step_response {m : RpcMessage} (hm : m.type = .response)
    (hcarry : m.hasResponse ∨ m.hasError) (nested : List (Call Msg)) :
    s.step (.response m nested) =
      match s.process.channel.outstandings[m.idInt64]? with
      | none => some { s with trace := s.trace ++ [.received m.idInt64] }
      | some out => some ⟨((s.process.forget m.idInt64).complete m nested out).1,
          s.trace ++ .received m.idInt64 ::
            ((s.process.forget m.idInt64).complete m nested out).2.map .effect⟩ := by
  have hcarry' : m.hasResponse || m.hasError := by simpa using hcarry
  rw [step, if_pos hm, Process.onRpcMessage_response hm]
  cases hout : s.process.channel.outstandings[m.idInt64]? with
  | none => rw [Process.onResponse_of_none hcarry' hout]; rfl
  | some out => rw [Process.onResponse_of_some hcarry' hout]

theorem exists_step (hop : op.Admissible) (s : TableState Msg) : ∃ t, s.step op = some t := by
  cases op with
  | callMethod call => exact ⟨_, rfl⟩
  | otherCall => exact ⟨_, rfl⟩
  | response m nested =>
    rw [step_response hop.1 hop.2]
    split <;> exact ⟨_, rfl⟩

/-- A step is possible only for what a peer may send. -/
theorem admissible_of_step (h : s.step op = some t) : op.Admissible := by
  cases op with
  | callMethod call => trivial
  | otherCall => trivial
  | response m nested =>
    rw [step] at h
    split_ifs at h with hm
    refine ⟨hm, ?_⟩
    by_contra hnone
    rw [Process.onRpcMessage_response hm, Process.onResponse, if_neg (by simpa using hnone)] at h
    cases h

theorem exists_trace (h : s.step op = some t) : ∃ new, t.trace = s.trace ++ new := by
  have hop := admissible_of_step h
  cases op with
  | callMethod call =>
    cases h
    exact ⟨_, rfl⟩
  | otherCall =>
    cases h
    exact ⟨_, rfl⟩
  | response m nested =>
    rw [step_response hop.1 hop.2] at h
    split at h <;> (cases h; exact ⟨_, rfl⟩)

end TableState

/-- **What one operation preserves.** -/
theorem Ledger.step {s t : TableState Msg} {op : Op Msg} (H : Ledger [] [] s)
    (hcount : callCount t.trace < 2147483647) (hfresh : FreshObjects t.trace)
    (h : s.step op = some t) : Ledger [] [] t := by
  obtain ⟨new, hnew⟩ := TableState.exists_trace h
  have hle : callCount s.trace ≤ callCount t.trace := by
    rw [hnew, callCount_append]
    exact Nat.le_add_right _ _
  have hop := TableState.admissible_of_step h
  cases op with
  | callMethod call =>
    cases h
    exact H.callMethod (by omega) call
  | otherCall =>
    cases h
    exact H.otherCall (by omega)
  | response m nested =>
    rw [TableState.step_response hop.1 hop.2] at h
    split at h
    · rename_i hout
      cases h
      exact H.received_unknown hout
    · rename_i out hout
      cases h
      rw [hnew] at hfresh
      obtain ⟨hr, hd⟩ := hfresh.left.nonNull _ ((H.outstanding_iff _ _).mp hout).mem_issued
      rcases out with ⟨_ | response, _ | done⟩
      · cases hr
      · cases hr
      · cases hd
      · exact H.answer hout hcount

/-- The books are balanced at the end of every run. -/
theorem Ledger.of_reachable {conn : Ptr} {s : TableState Msg}
    (h : Reachable TableState.step (.init conn) s) (hcount : callCount s.trace < 2147483647)
    (hfresh : FreshObjects s.trace) : Ledger [] [] s := by
  refine h.invariant_of_backward
    (C := fun s => callCount s.trace < 2147483647 ∧ FreshObjects s.trace)
    (fun s op t hst => ?_) (fun s op t H hC hst => H.step hC.1 hC.2 hst) (Ledger.init conn)
    ⟨hcount, hfresh⟩
  obtain ⟨new, hnew⟩ := TableState.exists_trace hst
  rintro ⟨hcount, hfresh⟩
  rw [hnew] at hcount hfresh
  rw [callCount_append] at hcount
  exact ⟨by omega, hfresh.left⟩

/-! ### The destructor -/

theorem mem_destructor {ch : RpcChannel Msg} {e : Effect Msg} (h : e ∈ ch.destructor) :
    (∃ response, e = .deleteResponse response) ∨ ∃ done, e = .deleteDone done := by
  simp only [RpcChannel.destructor, List.mem_flatMap, List.mem_append, Option.mem_toList,
    Option.map_eq_some_iff] at h
  obtain ⟨entry, -, ⟨response, -, rfl⟩ | ⟨done, -, rfl⟩⟩ := h
  · exact Or.inl ⟨response, rfl⟩
  · exact Or.inr ⟨done, rfl⟩

section Destructor

variable (s : TableState Msg)

/-- What the destructor releases, if `f` picks `object` from the deletions of one call. -/
theorem filterMap_destructor {ch : RpcChannel Msg} {f : Entry Msg → Option Ptr}
    {object : OutstandingCall → Option Ptr}
    (hf : ∀ out : OutstandingCall,
      List.filterMap f (((out.response.map Effect.deleteResponse).toList ++
        (out.done.map Effect.deleteDone).toList).map .effect) = (object out).toList) :
    (ch.destructor.map .effect).filterMap f = ch.objects object := by
  rw [RpcChannel.destructor, RpcChannel.objects, List.map_flatMap, List.filterMap_flatMap]
  simp only [hf]
  rw [List.filterMap_eq_flatMap_toList]

theorem deletedResponses_whole :
    deletedResponses s.whole =
      deletedResponses s.trace ++ s.process.channel.objects (·.response) := by
  rw [TableState.whole, deletedResponses, List.filterMap_append, filterMap_destructor]
  · rfl
  · rintro ⟨_ | response, _ | done⟩ <;> rfl

theorem deletedDones_whole :
    deletedDones s.whole = deletedDones s.trace ++ s.process.channel.objects (·.done) := by
  rw [TableState.whole, deletedDones, List.filterMap_append, filterMap_destructor]
  · rfl
  · rintro ⟨_ | response, _ | done⟩ <;> rfl

theorem doneRuns_whole : doneRuns s.whole = doneRuns s.trace := by
  rw [TableState.whole, doneRuns, List.filterMap_append, doneRuns, List.append_right_eq_self,
    List.filterMap_eq_nil_iff]
  intro e he
  obtain ⟨effect, heffect, rfl⟩ := List.mem_map.mp he
  rcases mem_destructor heffect with ⟨response, rfl⟩ | ⟨done, rfl⟩ <;> rfl

end Destructor

/-- A closure is in the table exactly when its call is pending. -/
theorem Ledger.mem_objects_done {responses dones : List Ptr} {s : TableState Msg}
    (H : Ledger responses dones s) {done : Ptr} :
    done ∈ s.process.channel.objects (·.done) ↔
      ∃ id out, Pending s.trace id out ∧ out.done = some done := by
  simp only [RpcChannel.objects, List.mem_filterMap, Prod.exists, ← H.outstanding_iff,
    Std.TreeMap.mem_toList_iff_getElem?_eq_some]

/-- **Safety of the call table against any peer.** For every run of calls, nested calls and
`RESPONSE`s with whatever ids, with fewer than `2 ^ 31 - 1` calls in the process and fresh objects
in every call: the run goes through, each closure is run at most once and only while the first
`RESPONSE` with the id of its call since the call is handled, a `RESPONSE` to no outstanding call
changes nothing, each response object is deleted once, right after its closure or in the
destructor, and the destructor deletes the closures of the calls that were never answered. -/
theorem callTable_safe (conn : Ptr) (ops : List (Op Msg)) (hops : ∀ op ∈ ops, op.Admissible) :
    ∃ s, run TableState.step (.init conn) ops = some s ∧
      (callCount s.trace < 2147483647 → FreshObjects s.trace → CallTableSafe s) := by
  obtain ⟨s, hs⟩ := exists_run (fun op hop s => TableState.exists_step (hops op hop) s)
    (TableState.init conn)
  refine ⟨s, hs, fun hcount hfresh => ?_⟩
  have H : Ledger [] [] s := Ledger.of_reachable ⟨ops, hs⟩ hcount hfresh
  have hdones : (doneRuns s.trace ++ s.process.channel.objects (·.done)).Nodup :=
    H.dones_perm.nodup_iff.mpr hfresh.nodup_dones
  have hresponses := H.responses_perm
  rw [List.nil_append, ← deletedResponses_whole] at hresponses
  refine ⟨?_, ?_, H.outstanding_iff, ?_, ?_, H.deletedInTurn, ?_, ?_, H.deletedDones_trace⟩
  · rw [doneRuns_whole]
    exact (List.nodup_append.mp hdones).1
  · refine H.ranInTurn.append fun e he before done hdone => ?_
    obtain ⟨effect, heffect, rfl⟩ := List.mem_map.mp he
    rcases mem_destructor heffect with ⟨response, rfl⟩ | ⟨done, rfl⟩ <;> cases hdone
  · intro m nested hm hcarry hout
    rw [TableState.step_response hm hcarry, hout]
  · intro call hcall response hresponse
    have hmem : response ∈ handedOver s.trace (·.response) :=
      List.mem_filterMap.mpr ⟨call, hcall, hresponse⟩
    rw [hresponses.count_eq, hfresh.nodup_responses.count, if_pos hmem]
  · intro done
    rw [deletedDones_whole, H.deletedDones_trace, List.nil_append, H.mem_objects_done]
  · rw [deletedDones_whole, H.deletedDones_trace, List.nil_append]
    exact (List.nodup_append.mp hdones).2.1

/-- An answer to no call, a call, and its answer, whose closure issues another call. -/
theorem callTable_safe_putCall :
    ∃ s, run TableState.step (.init 1) [.response (responseMessage 7 []) [],
        .callMethod (putCall 10 11), .response (responseMessage 1 []) [putCall 20 21]] = some s ∧
      CallTableSafe s := by
  obtain ⟨s, hs, hsafe⟩ := callTable_safe 1 [.response (responseMessage 7 []) [],
    .callMethod (putCall 10 11), .response (responseMessage 1 []) [putCall 20 21]]
    (by simp [Op.Admissible]; decide)
  have hcalls : callCount s.trace = 2 := by
    have h : (run TableState.step (.init 1) [.response (responseMessage 7 []) [],
        .callMethod (putCall 10 11), .response (responseMessage 1 []) [putCall 20 21]]).map
          (fun s => callCount s.trace) = some 2 := by decide +kernel
    simpa [hs] using h
  have hissued : issued s.trace = [(1, ⟨some 10, some 11⟩), (2, ⟨some 20, some 21⟩)] := by
    have h : (run TableState.step (.init 1) [.response (responseMessage 7 []) [],
        .callMethod (putCall 10 11), .response (responseMessage 1 []) [putCall 20 21]]).map
          (fun s => issued s.trace) =
            some [(1, ⟨some 10, some 11⟩), (2, ⟨some 20, some 21⟩)] := by decide +kernel
    simpa [hs] using h
  refine ⟨s, hs, hsafe (by omega) ⟨?_, ?_, ?_⟩⟩
  · rw [hissued]
    decide
  · rw [handedOver, hissued]
    decide
  · rw [handedOver, hissued]
    decide

/-- The ids of the `RESPONSE`s that were handled. -/
def receivedIds (h : List (Entry Msg)) : List Int :=
  h.filterMap fun
    | .received id => some id
    | _ => none

/-- A closure is run only while the first `RESPONSE` of the whole run with the id of its call is
handled. -/
def RunsOnFirstResponse (h : List (Entry Msg)) : Prop :=
  Always (fun before e => ∀ done, e = .effect (.runDone done) →
    ∃ call ∈ issued before, call.2.done = some done ∧ (receivedIds before).count call.1 = 1) h

/-- The channel after a `RESPONSE` with the id 1 and a first call, which gets this id. -/
def guessedId : TableState Bytes where
  process := ⟨1, some 1, (∅ : Std.TreeMap Int OutstandingCall).insert 1 ⟨some 10, some 11⟩, none⟩
  trace := [.received 1, .effect (.store 1 (putCall 10 11)),
    .effect (.send (some 1) (requestMessage 1 (putCall 10 11)))]

/-- A peer that guesses the next id and sends a `RESPONSE` with it before the call is issued: the
closure is run on the second `RESPONSE` with the id. -/
theorem not_runsOnFirstResponse_guessedId :
    ∃ s, run TableState.step (.init 1) [.response (responseMessage 1 []) [],
        .callMethod (putCall 10 11), .response (responseMessage 1 []) []] = some s ∧
      callCount s.trace = 1 ∧ FreshObjects s.trace ∧ ¬ RunsOnFirstResponse s.trace := by
  have hid : (responseMessage 1 []).idInt64 = 1 :=
    idInt64_responseMessage [] (by decide) (by decide)
  have hnext : int32 1 = 1 := int32_of_bounds (by decide) (by decide)
  have hguess : run TableState.step (.init 1) [.response (responseMessage 1 []) [],
      .callMethod (putCall 10 11)] = some guessedId := by
    rw [run, TableState.step_response rfl (by decide), hid]
    simp [TableState.init, RpcChannel.new, run, TableState.step, Process.callMethod, hnext, putCall,
      Call.out, guessedId]
  have hanswer : guessedId.step (.response (responseMessage 1 []) []) =
      some ⟨guessedId.process.forget 1, guessedId.trace ++ [.received 1,
        .effect (.parseResponse 10 []), .effect (.runDone 11), .effect (.deleteResponse 10)]⟩ := by
    have hout : guessedId.process.channel.outstandings[(1 : Int)]? = some ⟨some 10, some 11⟩ :=
      Std.TreeMap.getElem?_insert_self
    rw [TableState.step_response rfl (by decide), hid, hout]
    rfl
  have hrun := congrArg (Option.bind · (TableState.step · (.response (responseMessage 1 []) [])))
    hguess
  rw [← run_concat, Option.bind_some, hanswer] at hrun
  refine ⟨_, hrun, rfl, ⟨by decide, by decide, by decide⟩, fun h => ?_⟩
  obtain ⟨call, hcall, -, hcount⟩ :=
    h (guessedId.trace ++ [.received 1, .effect (.parseResponse 10 [])]) _ _ rfl 11 rfl
  obtain rfl : call = (1, ⟨some 10, some 11⟩) := List.mem_singleton.mp hcall
  exact absurd hcount (by decide)

end MRpc
