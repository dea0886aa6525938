import MRpc.Lib.Machine
import MRpc.Message.Accessors

/-!
# Objects refine messages

`Clear`, `MergeFrom`, `CopyFrom`, `Swap` and the destructor of `src/rpc.pb.cc`, and then whole runs
of all operations on any number of objects. `Clear` empties the strings whose bits are set and no
others, which is enough because a field whose bit is not set has nothing but an empty string.

## Main results

* `MessageHeap.acts_clear`, `MessageHeap.acts_mergeFrom`, `MessageHeap.acts_copyFrom`,
  `MessageHeap.Inv.step_swap`, `MessageHeap.Inv.step_delete`: operations on whole messages.
* `MessageHeap.refines_spec`: every run of the operations is a run of the abstract machine.
-/

namespace MRpc

open FixedWidth BitFlags Function Machine UniqueOwner

namespace MessageHeap

variable {s s' : MessageHeap} {m : Ptr} {C : MessageHeap → Prop}
  {op op' : MessageHeap → Option MessageHeap} {h h' : RpcMessage → RpcMessage}

/-! ### `Clear` -/

/-- A string that is set is emptied, and stays set. -/
theorem acts_clearStringIfHas (f : StringField) :
    Acts C m (fun s => s.clearStringIfHas m f)
      fun x => x.withStr f ((x.str f).map fun _ => []) := by
  intro s hs hm _
  obtain ⟨o, ho⟩ := Option.ne_none_iff_exists'.mp hm
  cases hhas : o.has f.bit with
  | true =>
    obtain ⟨p, hp⟩ := Option.ne_none_iff_exists'.mp ((hs.valid m o ho).own f hhas)
    have hbits : BitsAfter o o f.bit true := by
      intro j hj
      split_ifs with hj'
      · rw [hj', hhas]
      · rfl
    refine ⟨_, ?_, (hs.turns_write (v := []) ho hp rfl hbits ⟨rfl, rfl, rfl⟩ (by simp)).congr
      fun x hx => ?_⟩
    · have hobjects : update s.objects m (some o) = s.objects := by rw [← ho, update_eq_self]
      simp [clearStringIfHas, emptyString, assign, ho, hhas, hp, hs.exists_string ho hp, hobjects]
    · rw [messages_spec ho] at hx
      cases hx
      simp only [MessageObject.str_view, hhas, if_true, Option.map_some]
  | false =>
    refine ⟨s, by simp [clearStringIfHas, ho, hhas], hs.turns_refl hm fun x hx => ?_⟩
    rw [messages_spec ho] at hx
    cases hx
    have hnone : (o.view s.strings).str f = none := by
      rw [MessageObject.str_view, hhas]
      rfl
    rw [hnone, Option.map_none, ← hnone, RpcMessage.withStr_str]

/-- `type_` and `error_` become zero, and stay set. -/
theorem acts_zeroNumbers :
    Acts C m (fun s => s.edit m fun o => { o with type := 0, error := 0 }) fun x =>
      { x with
        type? := x.type?.map fun _ => .unknow
        error? := x.error?.map fun _ => .noError } := by
  refine Acts.edit (fun _ => rfl) (fun s o _ _ H => ?_) fun s o _ _ H => ?_
  · exact ⟨H.own, H.text_unset, ⟨.unknow, rfl⟩, fun _ => rfl, H.id_unset, ⟨.noError, rfl⟩,
      fun _ => rfl⟩
  · obtain ⟨t, ht⟩ := H.type
    obtain ⟨e, he⟩ := H.error
    refine RpcMessage.ext_str ?_ rfl ?_ fun f => by cases f <;> rfl
    · simp only [MessageObject.view, ht, MessageType.ofNat?_toNat]
      change (if o.has typeBit then MessageType.ofNat? 0 else none) = _
      cases o.has typeBit <;> rfl
    · simp only [MessageObject.view, he, RpcErrorCode.ofNat?_toNat]
      change (if o.has errorBit then RpcErrorCode.ofNat? 0 else none) = _
      cases o.has errorBit <;> rfl

theorem acts_zeroId :
    Acts C m (fun s => s.edit m fun o => { o with id := 0 }) fun x =>
      { x with id? := x.id?.map fun _ => 0 } := by
  refine Acts.edit (fun _ => rfl) (fun s o _ _ H => ?_) fun s o _ _ H => ?_
  · exact ⟨H.own, H.text_unset, H.type, H.type_unset, fun _ => rfl, H.error, H.error_unset⟩
  · refine RpcMessage.ext_str rfl ?_ rfl fun f => by cases f <;> rfl
    change (if o.has idBit then some 0 else none) = _
    simp only [MessageObject.view]
    cases o.has idBit <;> rfl

/-- All the fields that are set have their defaults. -/
structure Blank (x : RpcMessage) : Prop where
  type : x.type = .unknow
  id : x.id = 0
  error : x.error?.getD .noError = .noError
  str : ∀ f, (x.str f).getD [] = []

/-- The message with the default in each field that is set. -/
def blanked (x : RpcMessage) : RpcMessage where
  type? := x.type?.map fun _ => .unknow
  id? := x.id?.map fun _ => 0
  service? := x.service?.map fun _ => []
  method? := x.method?.map fun _ => []
  request? := x.request?.map fun _ => []
  response? := x.response?.map fun _ => []
  error? := x.error?.map fun _ => .noError

theorem blank_blanked (x : RpcMessage) : Blank (blanked x) := by
  have hstr (v : Option Bytes) : (v.map fun _ => []).getD [] = ([] : Bytes) := by cases v <;> rfl
  refine ⟨?_, ?_, ?_, fun f => by cases f <;> exact hstr _⟩
  · rw [RpcMessage.type, blanked]
    cases x.type? <;> rfl
  · rw [RpcMessage.id, blanked]
    cases x.id? <;> rfl
  · rw [blanked]
    cases x.error? <;> rfl

/-- What `Clear` does before it resets the bits. -/
theorem acts_blanked :
    Acts (fun _ => True) m (fun s => do
      let s ← s.edit m fun o => { o with type := 0, error := 0 }
      let s ← s.edit m fun o => { o with id := 0 }
      let s ← s.clearStringIfHas m .service
      let s ← s.clearStringIfHas m .method
      let s ← s.clearStringIfHas m .request
      s.clearStringIfHas m .response) blanked := by
  have hC : Kept m fun _ => True := fun _ _ _ _ _ => trivial
  have hall := acts_zeroNumbers.bind hC (acts_zeroId.bind hC
    ((acts_clearStringIfHas .service).bind hC ((acts_clearStringIfHas .method).bind hC
      ((acts_clearStringIfHas .request).bind hC (acts_clearStringIfHas .response)))))
  exact hall

/-- The bits are reset, and no trace is left if all fields had their defaults. -/
theorem acts_resetBits :
    Acts (fun s => ∀ x, s.spec.messages m = some x → Blank x) m
      (fun s => s.edit m fun o => { o with hasBits := 0 }) fun _ => .empty := by
  have hhas (o : MessageObject) (i : Nat) : { o with hasBits := 0 }.has i = false := test_zero i
  refine Acts.edit (fun _ => rfl) (fun s o hC ho H => ?_) fun s o _ _ _ => ?_
  · have hblank := hC _ (messages_spec ho)
    obtain ⟨htype, hid, herror, htext⟩ := H.getters
    refine ⟨fun f hf => ?_, fun f _ => ?_, H.type, fun _ => ?_, fun _ => ?_, H.error, fun _ => ?_⟩
    · rw [hhas] at hf
      cases hf
    · exact (htext f).trans (hblank.str f)
    · obtain ⟨t, ht⟩ := H.type
      rw [ht, MessageType.ofNat?_toNat, hblank.type] at htype
      cases htype
      exact ht
    · exact hid.trans hblank.id
    · obtain ⟨e, he⟩ := H.error
      rw [he, RpcErrorCode.ofNat?_toNat, hblank.error] at herror
      cases herror
      exact he
  · simp only [MessageObject.view, hhas, Bool.false_eq_true, if_false]
    rfl

/-- An object with none of its bits set stands for the empty message. -/
theorem view_eq_empty {o : MessageObject} {strings : Ptr → Option Bytes}
    (h : ∀ i < 7, o.has i = false) : o.view strings = .empty := by
  simp only [MessageObject.view, h typeBit (by decide), h idBit (by decide),
    h errorBit (by decide), h _ (StringField.bit_lt _), Bool.false_eq_true, if_false]
  rfl

/-- `Clear`: whatever the message was, it is empty. -/
theorem acts_clear : Acts C m (fun s => s.clear m) fun _ => .empty := by
  intro s hs hm _
  obtain ⟨o, ho⟩ := Option.ne_none_iff_exists'.mp hm
  by_cases hbits : o.hasBits &&& 127#32 = 0#32
  · have hempty : o.view s.strings = .empty :=
      view_eq_empty fun i hi => test_eq_false_of_and_eq_zero (n := 7) hbits hi (by omega)
    obtain ⟨s', hs', hturns⟩ := acts_resetBits (m := m) s hs hm fun x hx => by
      rw [messages_spec ho, hempty] at hx
      cases hx
      exact ⟨rfl, rfl, rfl, fun f => by cases f <;> rfl⟩
    exact ⟨s', by simpa [clear, ho, hbits] using hs', hturns⟩
  · obtain ⟨s', hs', hturns⟩ := acts_blanked s hs hm trivial
    obtain ⟨s'', hs'', hturns'⟩ := acts_resetBits (m := m) s' hturns.inv hturns.alive
      fun y hy => by
        obtain ⟨x, -, hx⟩ := hturns.becomes
        simp only [hx, update_self, Option.some.injEq] at hy
        exact hy ▸ blank_blanked x
    refine ⟨s'', ?_, hturns.trans hturns'⟩
    have hbind := congrArg (fun r => r.bind fun s => s.edit m fun o => { o with hasBits := 0 }) hs'
    simp only [Option.bind_eq_bind, Option.bind_assoc, Option.bind_some] at hbind
    simp only [clear, ho, Option.bind_eq_bind, Option.bind_some, bne_iff_ne, ne_eq, hbits,
      not_false_eq_true, if_true]
    exact hbind.trans hs''

/-! ### `MergeFrom` and `CopyFrom` -/

section Merge

variable {source : Ptr} {o : MessageObject} {y : RpcMessage}

/-- The message at `source` is `o`, which stands for `y`. -/
def IsSource (source : Ptr) (o : MessageObject) (y : RpcMessage) (s : MessageHeap) : Prop :=
  s.objects source = some o ∧ s.spec.messages source = some y

theorem kept_isSource (hne : m ≠ source) : Kept m (IsSource source o y) := by
  rintro h s s' hturns ⟨ho, hy⟩
  obtain ⟨x, -, hs'⟩ := hturns.becomes
  refine ⟨(hturns.others source hne.symm).trans ho, ?_⟩
  rw [hs']
  exact (update_of_ne hne.symm _ _).trans hy

theorem IsSource.view_eq (H : IsSource source o y s) : o.view s.strings = y :=
  Option.some.inj ((messages_spec H.1).symm.trans H.2)

theorem acts_mergeType :
    Acts (IsSource source o y) m (fun s => s.mergeType m o)
      fun x => { x with type? := y.type?.or x.type? } := by
  intro s hs hm hC
  obtain ⟨t, ht⟩ := (hs.valid source o hC.1).type
  have hy : y.type? = if o.has typeBit then some t else none := by
    rw [← hC.view_eq]
    simp only [MessageObject.view, ht, MessageType.ofNat?_toNat]
  rw [hy]
  cases hhas : o.has typeBit with
  | true =>
    obtain ⟨s', hs', hturns⟩ := acts_setType t s hs hm hC
    exact ⟨s', by simpa [mergeType, hhas, ht, MessageType.ofNat?_toNat] using hs', hturns⟩
  | false => exact ⟨s, by simp [mergeType, hhas], hs.turns_refl hm fun _ _ => rfl⟩

theorem acts_mergeId :
    Acts (IsSource source o y) m (fun s => s.mergeId m o)
      fun x => { x with id? := y.id?.or x.id? } := by
  intro s hs hm hC
  have hy : y.id? = if o.has idBit then some o.id else none := by
    rw [← hC.view_eq]
    rfl
  rw [hy]
  cases hhas : o.has idBit with
  | true =>
    obtain ⟨s', hs', hturns⟩ := acts_setId o.id s hs hm hC
    exact ⟨s', by simpa [mergeId, hhas] using hs', hturns⟩
  | false => exact ⟨s, by simp [mergeId, hhas], hs.turns_refl hm fun _ _ => rfl⟩

theorem acts_mergeError :
    Acts (IsSource source o y) m (fun s => s.mergeError m o)
      fun x => { x with error? := y.error?.or x.error? } := by
  intro s hs hm hC
  obtain ⟨e, he⟩ := (hs.valid source o hC.1).error
  have hy : y.error? = if o.has errorBit then some e else none := by
    rw [← hC.view_eq]
    simp only [MessageObject.view, he, RpcErrorCode.ofNat?_toNat]
  rw [hy]
  cases hhas : o.has errorBit with
  | true =>
    obtain ⟨s', hs', hturns⟩ := acts_setError e s hs hm hC
    exact ⟨s', by simpa [mergeError, hhas, he, RpcErrorCode.ofNat?_toNat] using hs', hturns⟩
  | false => exact ⟨s, by simp [mergeError, hhas], hs.turns_refl hm fun _ _ => rfl⟩

theorem acts_mergeString (f : StringField) :
    Acts (IsSource source o y) m (fun s => s.mergeString m o f)
      fun x => x.withStr f ((y.str f).or (x.str f)) := by
  intro s hs hm hC
  have hy : y.str f = if o.has f.bit then some (o.text s.strings f) else none := by
    rw [← hC.view_eq, MessageObject.str_view]
  rw [hy]
  cases hhas : o.has f.bit with
  | true =>
    obtain ⟨p, hp⟩ := Option.ne_none_iff_exists'.mp ((hs.valid source o hC.1).own f hhas)
    obtain ⟨s', hs', hturns⟩ := acts_setString f (o.text s.strings f) s hs hm hC
    refine ⟨s', ?_, hturns⟩
    simpa [mergeString, hhas, read, hp, hs.exists_string hC.1 hp] using hs'
  | false =>
    exact ⟨s, by simp [mergeString, hhas], hs.turns_refl hm fun x _ => x.withStr_str f⟩

/-- `MergeFrom` on two messages: every field that the source has is set. -/
theorem acts_mergeFrom (hne : m ≠ source) :
    Acts (IsSource source o y) m (fun s => s.mergeFrom m source) fun x => x.mergeFrom y := by
  have hC : Kept m (IsSource source o y) := kept_isSource hne
  have hall := acts_mergeType.bind hC (acts_mergeId.bind hC ((acts_mergeString .service).bind hC
    ((acts_mergeString .method).bind hC ((acts_mergeString .request).bind hC
      ((acts_mergeString .response).bind hC acts_mergeError)))))
  intro s hs hm hCs
  by_cases hbits : o.hasBits &&& 255#32 = 0#32
  · have hempty : y = .empty := by
      rw [← hCs.view_eq]
      refine view_eq_empty fun i hi => ?_
      exact test_eq_false_of_and_eq_zero (n := 8) hbits (by omega) (by omega)
    refine ⟨s, by simp [mergeFrom, hne, hCs.1, hbits], hs.turns_refl hm fun x _ => ?_⟩
    rw [hempty, RpcMessage.mergeFrom_empty]
  · obtain ⟨s', hs', hturns⟩ := hall s hs hm hCs
    refine ⟨s', ?_, hturns⟩
    simpa [mergeFrom, hne, hCs.1, hbits] using hs'

theorem acts_copyFrom :
    Acts (IsSource source o y) m (fun s => s.copyFrom m source) fun _ => y := by
  intro s hs hm hCs
  by_cases hne : m = source
  · subst hne
    refine ⟨s, by simp [copyFrom], hs.turns_refl hm fun x hx => ?_⟩
    exact Option.some.inj (hCs.2.symm.trans hx)
  · obtain ⟨s', hs', hturns⟩ :=
      acts_clear.bind (kept_isSource hne) (acts_mergeFrom hne) s hs hm hCs
    refine ⟨s', by simpa [copyFrom, Ne.symm hne] using hs', hturns.congr fun x _ => ?_⟩
    cases y
    simp [RpcMessage.mergeFrom, RpcMessage.empty]

end Merge

/-! ### Making and deleting -/

/-- A new message has no string. -/
theorem Inv.step_new (H : Inv s) :
    ∃ s', s.step .new = some s' ∧ Inv s' ∧ s.spec.Step .new s'.spec := by
  let s' : MessageHeap :=
    { s with objects := update s.objects s.fresh (some MessageObject.new), fresh := s.fresh + 1 }
  have hfresh : s.objects s.fresh = none := H.objects_none _ (Nat.le_refl _)
  have howns : ∀ w p, s'.Owns w p ↔ s.Owns w p := by
    rintro (⟨m, f⟩ | -) p
    · rw [owns_update (t := s') rfl]
      by_cases hm : m = s.fresh
      · simp [hm, Owns, hfresh, MessageObject.new]
      · simp [hm]
    · rfl
  refine ⟨s', rfl, ⟨fun m o ho => ?_, H.owned.rename Function.bijective_id howns, fun p hp => ?_,
    fun m hm => ?_⟩, s.fresh, by simp [spec, hfresh], ?_⟩
  · by_cases hm : m = s.fresh
    · simp only [s', hm, update_self, Option.some.injEq] at ho
      rw [← ho]
      exact MessageObject.valid_new _
    · exact H.valid m o (by simpa [s', hm] using ho)
  · exact H.strings_none p (Nat.le_of_succ_le hp)
  · have hlt : s.fresh < m := hm
    exact (update_of_ne (Nat.ne_of_gt hlt) _ _).trans (H.objects_none m (Nat.le_of_lt hlt))
  · have hmessages : s'.spec.messages = update s.spec.messages s.fresh (some .empty) := by
      funext m
      by_cases hm : m = s.fresh
      · simp [spec, s', hm, MessageObject.view_new]
      · simp [spec, s', hm]
    exact congrArg (fun messages => MessageSpec.mk messages s'.spec.held) hmessages

/-- The caller makes a string. -/
theorem Inv.step_newString (H : Inv s) (value : Bytes) :
    ∃ s', s.step (.newString value) = some s' ∧ Inv s' ∧
      s.spec.Step (.newString value) s'.spec := by
  let s' : MessageHeap :=
    { s with
      strings := update s.strings s.fresh (some value)
      held := update s.held s.fresh true
      fresh := s.fresh + 1 }
  have hfresh : s.strings s.fresh = none := H.strings_none _ (Nat.le_refl _)
  have hne : ∀ w q, s.Owns w q → q ≠ s.fresh := by
    rintro w q hq rfl
    exact (H.owned.allocated_iff _).mpr ⟨w, hq⟩ hfresh
  refine ⟨s', rfl, ⟨fun m o ho => ?_, ?_, fun p hp => ?_, fun m hm => ?_⟩, s.fresh, ?_, ?_⟩
  · refine (H.valid m o ho).congr fun f p hp => ?_
    exact update_of_ne (hne _ p (owns_field ho hp)) _ _
  · refine H.owned.alloc (w := .caller) hfresh value fun w q => ?_
    cases w with
    | field m f => simp [Owns, s']
    | caller =>
      by_cases hq : q = s.fresh
      · simp [Owns, s', hq]
      · simp [Owns, s', hq]
  · have hlt : s.fresh < p := hp
    exact (update_of_ne (Nat.ne_of_gt hlt) _ _).trans (H.strings_none p (Nat.le_of_lt hlt))
  · exact H.objects_none m (Nat.le_of_succ_le hm)
  · simp [spec, hfresh]
  · have hmessages : s'.spec.messages = s.spec.messages := funext fun m =>
      messages_congr rfl fun o f p ho hp => update_of_ne (hne _ p (owns_field ho hp)) _ _
    have hheld : s'.spec.held = update s.spec.held s.fresh (some value) := by
      funext q
      by_cases hq : q = s.fresh
      · simp [spec, s', hq]
      · simp [spec, s', hq]
    rw [← hheld, ← hmessages]

/-- The caller deletes a string of its own. -/
theorem Inv.step_deleteHeld (H : Inv s) {p : Ptr} (hp : s.held p = true) :
    ∃ s', s.step (.deleteHeld p) = some s' ∧ Inv s' ∧ s.spec.Step (.deleteHeld p) s'.spec := by
  obtain ⟨v, hv⟩ := H.owned.exists_of_owns (owns_caller hp)
  let s' : MessageHeap :=
    { s with strings := update s.strings p none, held := update s.held p false }
  have hne : ∀ m f q, s.Owns (.field m f) q → q ≠ p := by
    rintro m f q hq rfl
    cases H.owned.unique q _ _ hq (owns_caller hp)
  refine ⟨s', by simp [step, deleteString, hv, s'], ⟨fun m o ho => ?_, ?_, fun q hq => ?_,
    H.objects_none⟩, by simp [spec, hp, hv], ?_⟩
  · refine (H.valid m o ho).congr fun f q hq => ?_
    exact update_of_ne (hne m f q (owns_field ho hq)) _ _
  · refine H.owned.free (· = p) (fun q hq => by simp [s', hq]) (fun q hq => by simp [s', hq])
      fun w q => ?_
    cases w with
    | field m f => exact ⟨fun hq => ⟨hne m f q hq, hq⟩, And.right⟩
    | caller =>
      by_cases hq : q = p
      · simp [Owns, s', hq]
      · simp [Owns, s', hq]
  · have hq' : s.strings q = none := H.strings_none q hq
    by_cases hqp : q = p
    · simp [s', hqp]
    · exact (update_of_ne hqp _ _).trans hq'
  · have hmessages : s'.spec.messages = s.spec.messages := funext fun m =>
      messages_congr rfl fun o f q ho hq => update_of_ne (hne m f q (owns_field ho hq)) _ _
    have hheld : s'.spec.held = update s.spec.held p none := by
      funext q
      by_cases hq : q = p
      · simp [spec, s', hq]
      · simp [spec, s', hq]
    rw [← hheld, ← hmessages]

/-- The destructor deletes the strings of the object, each of them once, and nothing else. -/
theorem Inv.exists_delete (H : Inv s) {o : MessageObject} (ho : s.objects m = some o) :
    ∃ strings, s.delete m = some { s with strings, objects := update s.objects m none } ∧
      (∀ q, (∃ f, o.str f = some q) → strings q = none) ∧
      ∀ q, (¬ ∃ f, o.str f = some q) → strings q = s.strings q := by
  have hsome : ∀ f p, o.str f = some p → s.strings p ≠ none := by
    intro f p hp
    rw [H.exists_string ho hp]
    exact Option.some_ne_none _
  -- A string is there until the field it belongs to is reached.
  have hkeep : ∀ (t : MessageHeap) f f' p, f' ≠ f → o.str f' = some p →
      t.dropped o f p = t.strings p :=
    fun t f f' p hff hp' => dropped_of_ne fun hp => hff (H.field_unique ho hp hp')
  let s₁ : MessageHeap := { s with strings := s.dropped o .service }
  let s₂ : MessageHeap := { s with strings := s₁.dropped o .method }
  let s₃ : MessageHeap := { s with strings := s₂.dropped o .request }
  have h₁ : s.deleteOwnString o .service = some s₁ := deleteOwnString_eq (hsome .service)
  have h₂ : s₁.deleteOwnString o .method = some s₂ := deleteOwnString_eq fun p hp => by
    rw [show s₁.strings p = s.strings p from hkeep s .service .method p (by decide) hp]
    exact hsome .method p hp
  have h₃ : s₂.deleteOwnString o .request = some s₃ := deleteOwnString_eq fun p hp => by
    rw [show s₂.strings p = s.strings p from (hkeep s₁ .method .request p (by decide) hp).trans
      (hkeep s .service .request p (by decide) hp)]
    exact hsome .request p hp
  have h₄ : s₃.deleteOwnString o .response = some { s with strings := s₃.dropped o .response } :=
    deleteOwnString_eq fun p hp => by
      rw [show s₃.strings p = s.strings p from (hkeep s₂ .request .response p (by decide) hp).trans
        ((hkeep s₁ .method .response p (by decide) hp).trans
          (hkeep s .service .response p (by decide) hp))]
      exact hsome .response p hp
  refine ⟨s₃.dropped o .response, by simp [delete, ho, h₁, h₂, h₃, h₄], ?_, fun q hq => ?_⟩
  · rintro q ⟨f, hf⟩
    cases f <;> simp [s₃, s₂, s₁, dropped, hf]
  · rw [not_exists] at hq
    simp [s₃, s₂, s₁, dropped, hq]

theorem Inv.step_delete (H : Inv s) {o : MessageObject} (ho : s.objects m = some o) :
    ∃ s', s.step (.delete m) = some s' ∧ Inv s' ∧ s.spec.Step (.delete m) s'.spec := by
  obtain ⟨strings, hdelete, hfree, hkept⟩ := H.exists_delete ho
  let s' : MessageHeap := { s with strings, objects := update s.objects m none }
  -- The other owners keep their strings.
  have howner : ∀ w q, (∀ f, w ≠ .field m f) → s.Owns w q → ¬ ∃ f, o.str f = some q :=
    fun w q hw hq ⟨f, hf⟩ => H.str_ne ho (hw f) hq hf
  have hsame : ∀ m' o' f p, m' ≠ m → s.objects m' = some o' → o'.str f = some p →
      strings p = s.strings p :=
    fun m' o' f p hm' ho' hp => hkept p (howner (.field m' f) p (by simp [hm']) (owns_field ho' hp))
  refine ⟨s', hdelete, ⟨fun m' o' ho' => ?_, ?_, fun q hq => ?_, fun m' hm' => ?_⟩,
    by simp [messages_spec ho], ?_⟩
  · have hm' : m' ≠ m := by
      rintro rfl
      simp [s'] at ho'
    simp only [s', update_of_ne hm'] at ho'
    exact (H.valid m' o' ho').congr fun f p => hsame m' o' f p hm' ho'
  · refine H.owned.free _ hfree hkept fun w q => ?_
    cases w with
    | field m' f =>
      by_cases hm' : m' = m
      · subst hm'
        refine iff_of_false ?_ fun ⟨hnot, o', ho', hq⟩ => hnot ⟨f, ?_⟩
        · simp [Owns, s']
        · cases ho.symm.trans ho'
          exact hq
      · have hiff : s'.Owns (.field m' f) q ↔ s.Owns (.field m' f) q := by simp [Owns, s', hm']
        rw [hiff]
        exact ⟨fun hq => ⟨howner _ q (by simp [hm']) hq, hq⟩, And.right⟩
    | caller => exact ⟨fun hq => ⟨howner .caller q (by simp) hq, hq⟩, And.right⟩
  · by_cases hq' : ∃ f, o.str f = some q
    · exact hfree q hq'
    · exact (hkept q hq').trans (H.strings_none q hq)
  · by_cases hmm : m' = m
    · simp [s', hmm]
    · exact (update_of_ne hmm _ _).trans (H.objects_none m' hm')
  · have hmessages : s'.spec.messages = update s.spec.messages m none := by
      funext m'
      by_cases hmm : m' = m
      · simp [spec, s', hmm]
      · rw [update_of_ne hmm]
        exact messages_congr (update_of_ne hmm _ _) fun o' f p => hsame m' o' f p hmm
    have hheld : s'.spec.held = s.spec.held := funext fun q =>
      held_congr rfl fun hq => hkept q (howner .caller q (by simp) hq)
    rw [← hheld, ← hmessages]

/-- The owner of a string after two messages have exchanged their fields. -/
def swapOwner (m other : Ptr) : StringOwner → StringOwner
  | .field x f => .field (Equiv.swap m other x) f
  | .caller => .caller

theorem swapOwner_involutive (m other : Ptr) : Function.Involutive (swapOwner m other) := by
  rintro (⟨x, f⟩ | -)
  · simp only [swapOwner, Equiv.swap_apply_self]
  · rfl

/-- `Swap`: the strings of one message now belong to the other. -/
theorem Inv.step_swap (H : Inv s) {o p : MessageObject} {other : Ptr} (ho : s.objects m = some o)
    (hp : s.objects other = some p) :
    ∃ s', s.step (.swap m other) = some s' ∧ Inv s' ∧ s.spec.Step (.swap m other) s'.spec := by
  by_cases hne : other = m
  · subst hne
    obtain rfl := Option.some.inj (ho.symm.trans hp)
    refine ⟨s, by simp [step, swap, ho], H, _, _, messages_spec ho, messages_spec ho, ?_⟩
    rw [← messages_spec ho, update_eq_self, update_eq_self]
  · let s' : MessageHeap :=
      { s with objects := update (update s.objects m (some p)) other (some o) }
    have hobjects : ∀ x, s'.objects x = s.objects (Equiv.swap m other x) := by
      intro x
      by_cases hx : x = other
      · simp [s', hx, ho]
      · by_cases hxm : x = m
        · simp [s', hxm, Ne.symm hne, hp]
        · simp [s', hx, hxm, Equiv.swap_apply_of_ne_of_ne hxm hx]
    have howns : ∀ w q, s'.Owns w q ↔ s.Owns (swapOwner m other w) q := by
      rintro (⟨x, f⟩ | -) q
      · simp only [Owns, hobjects, swapOwner]
      · rfl
    have hmessages : s'.spec.messages =
        update (update s.spec.messages m (some (p.view s.strings))) other
          (some (o.view s.strings)) := by
      funext x
      by_cases hx : x = other
      · simp [spec, s', hx]
      · by_cases hxm : x = m
        · simp [spec, s', hxm, Ne.symm hne]
        · simp [spec, s', hx, hxm]
    refine ⟨s', by simp [step, swap, ho, hp, hne, s'], ⟨fun x q hq => ?_,
      H.owned.rename (swapOwner_involutive m other).bijective howns, H.strings_none,
      fun x hx => ?_⟩, _, _, messages_spec ho, messages_spec hp, ?_⟩
    · rw [hobjects] at hq
      exact H.valid _ q hq
    · have hm : m < s.fresh := Nat.lt_of_not_le fun hge => by simp [H.objects_none m hge] at ho
      have hother : other < s.fresh :=
        Nat.lt_of_not_le fun hge => by simp [H.objects_none other hge] at hp
      have hx' : s.fresh ≤ x := hx
      rw [hobjects, Equiv.swap_apply_of_ne_of_ne (Nat.ne_of_gt (Nat.lt_of_lt_of_le hm hx'))
        (Nat.ne_of_gt (Nat.lt_of_lt_of_le hother hx'))]
      exact H.objects_none x hx'
    · exact congrArg (fun messages => MessageSpec.mk messages s'.spec.held) hmessages

/-! ### Whole runs -/

theorem exists_of_alive (h : s.alive m = true) : ∃ o, s.objects m = some o :=
  Option.isSome_iff_exists.mp h

/-- An operation on one message as a step. -/
theorem Acts.exists_step (H : Acts (fun _ => True) m op h) (hs : Inv s) (hm : s.alive m = true) :
    ∃ s', op s = some s' ∧ Inv s' ∧ s.spec.Becomes m h s'.spec := by
  obtain ⟨o, ho⟩ := exists_of_alive hm
  obtain ⟨s', hs', hturns⟩ := H s hs (by simp [ho]) trivial
  exact ⟨s', hs', hturns.inv, hturns.becomes⟩

/-- **One operation.** If the caller keeps to what it has to see to, the operation does not fault,
preserves the invariant, and does what it is for. -/
theorem Inv.step (H : Inv s) {a : MessageAction} (ha : s.enabled a = true) :
    ∃ s', s.step a = some s' ∧ Inv s' ∧ s.spec.Step a s'.spec := by
  cases a with
  | new => exact H.step_new
  | newString value => exact H.step_newString value
  | deleteHeld p => exact H.step_deleteHeld ha
  | delete m =>
    obtain ⟨o, ho⟩ := exists_of_alive ha
    exact H.step_delete ho
  | setType m value => exact (acts_setType value).exists_step H ha
  | clearType m => exact acts_clearType.exists_step H ha
  | setId m value => exact (acts_setId value).exists_step H ha
  | clearId m => exact acts_clearId.exists_step H ha
  | setError m value => exact (acts_setError value).exists_step H ha
  | clearError m => exact acts_clearError.exists_step H ha
  | changeString m f g => exact (acts_changeString f g).exists_step H ha
  | setString m f value => exact (acts_setString f value).exists_step H ha
  | clearString m f => exact (acts_clearString f).exists_step H ha
  | releaseString m f =>
    obtain ⟨o, ho⟩ := exists_of_alive ha
    exact H.step_releaseString ho f
  | setAllocatedString m f value =>
    simp only [enabled, Bool.and_eq_true] at ha
    cases value with
    | none => exact (acts_setAllocatedNull f).exists_step H ha.1
    | some q =>
      obtain ⟨o, ho⟩ := exists_of_alive ha.1
      exact H.step_setAllocatedString ho f ha.2
  | clear m => exact acts_clear.exists_step H ha
  | mergeFrom m source =>
    simp only [enabled, Bool.and_eq_true, bne_iff_ne] at ha
    obtain ⟨o, ho⟩ := exists_of_alive ha.1.1
    obtain ⟨p, hp⟩ := exists_of_alive ha.1.2
    obtain ⟨s', hs', hturns⟩ := acts_mergeFrom ha.2 s H (by simp [ho]) ⟨hp, messages_spec hp⟩
    exact ⟨s', hs', hturns.inv, _, messages_spec hp, hturns.becomes⟩
  | copyFrom m source =>
    simp only [enabled, Bool.and_eq_true] at ha
    obtain ⟨o, ho⟩ := exists_of_alive ha.1
    obtain ⟨p, hp⟩ := exists_of_alive ha.2
    obtain ⟨s', hs', hturns⟩ := acts_copyFrom (m := m) s H (by simp [ho]) ⟨hp, messages_spec hp⟩
    exact ⟨s', hs', hturns.inv, _, messages_spec hp, hturns.becomes⟩
  | swap m other =>
    simp only [enabled, Bool.and_eq_true] at ha
    obtain ⟨o, ho⟩ := exists_of_alive ha.1
    obtain ⟨p, hp⟩ := exists_of_alive ha.2
    exact H.step_swap ho hp

/-- A run from a state with the invariant is a run of the abstract machine. -/
theorem Inv.run_spec (H : Inv s) {as : List MessageAction} (h : run next s as = some s') :
    Inv s' ∧ MessageSpec.Run s.spec as s'.spec := by
  induction as generalizing s with
  | nil =>
    obtain rfl := Option.some.inj h
    exact ⟨H, .nil _⟩
  | cons a as ih =>
    obtain ⟨t, ht, hrun⟩ := Option.bind_eq_some_iff.mp h
    simp only [next] at ht
    split_ifs at ht with ha
    obtain ⟨t', ht', hinv, hstep⟩ := H.step ha
    obtain rfl := Option.some.inj (ht'.symm.trans ht)
    obtain ⟨hinv', hrun'⟩ := ih hinv hrun
    exact ⟨hinv', .cons hstep hrun'⟩

theorem Inv.read_eq (H : Inv s) {o : MessageObject} (ho : s.objects m = some o) (f : StringField) :
    s.read o f = some (o.text s.strings f) := by
  rw [read]
  split
  case h_1 hp => simp [MessageObject.text, hp]
  case h_2 p hp => exact H.exists_string ho hp

/-- **Objects refine messages.** Every run of the operations, on any number of objects, is a run of
the machine of records with optional fields. No operation that the caller may use in the state that
is reached faults, every string has one owner there and only strings that are allocated have one,
and the getters of an object return what its record has. -/
theorem refines_spec {as : List MessageAction} (h : run next empty as = some s) :
    MessageSpec.Run .empty as s.spec ∧ (∀ a, s.enabled a = true → ∃ s', s.step a = some s') ∧
      (∀ p, s.strings p ≠ none → ∃! w, s.Owns w p) ∧ (∀ w p, s.Owns w p → s.strings p ≠ none) ∧
      ∀ m o, s.objects m = some o → ∃ x, s.spec.messages m = some x ∧
        MessageType.ofNat? o.type = some x.type ∧ o.id = x.id ∧
        RpcErrorCode.ofNat? o.error = some (x.error?.getD .noError) ∧
        ∀ f, s.read o f = some ((x.str f).getD []) := by
  obtain ⟨H, hrun⟩ := inv_empty.run_spec h
  refine ⟨hrun, fun a ha => ?_, fun p hp => ?_, fun w p hw => ?_, fun m o ho => ?_⟩
  · obtain ⟨s', hs', -⟩ := H.step ha
    exact ⟨s', hs'⟩
  · obtain ⟨w, hw⟩ := (H.owned.allocated_iff p).mp hp
    exact ⟨w, hw, fun w' hw' => H.owned.unique p w' w hw' hw⟩
  · exact (H.owned.allocated_iff p).mpr ⟨w, hw⟩
  · obtain ⟨htype, hid, herror, htext⟩ := (H.valid m o ho).getters
    refine ⟨_, messages_spec ho, htype, hid, herror, fun f => ?_⟩
    rw [H.read_eq ho, htext]

/-- Two messages: one is filled, merged into the other and cleared, and gives up the string it kept,
which the other one takes before they are swapped. Each of the two strings has one owner, and the
getter returns what the record has. -/
theorem refines_spec_mergeThenRelease :
    ∃ s o x, run next empty [.new, .new, .setType 0 .request,
        .setString 0 .service [112, 117, 116], .mergeFrom 1 0, .clear 0, .releaseString 0 .service,
        .setAllocatedString 1 .method (some 2), .swap 0 1] = some s ∧
      s.objects 0 = some o ∧ s.spec.messages 0 = some x ∧ (∃! w, s.Owns w 2) ∧
      (∃! w, s.Owns w 3) ∧ s.read o .service = some [112, 117, 116] ∧
      (x.str .service).getD [] = [112, 117, 116] := by
  have hrun : (run next empty [.new, .new, .setType 0 .request,
      .setString 0 .service [112, 117, 116], .mergeFrom 1 0, .clear 0, .releaseString 0 .service,
      .setAllocatedString 1 .method (some 2), .swap 0 1]).any (fun s => (s.strings 2).isSome &&
        (s.strings 3).isSome && (s.objects 0).any fun o =>
          decide (s.read o .service = some [112, 117, 116])) = true := by decide +kernel
  obtain ⟨s, hs, hview⟩ := (Option.any_eq_true _ _).mp hrun
  simp only [Bool.and_eq_true, Option.isSome_iff_ne_none, Option.any_eq_true,
    decide_eq_true_eq] at hview
  obtain ⟨⟨htwo, hthree⟩, o, ho, hread⟩ := hview
  obtain ⟨-, -, howner, -, hgetters⟩ := refines_spec hs
  obtain ⟨x, hx, -, -, -, htext⟩ := hgetters 0 o ho
  refine ⟨s, o, x, hs, ho, hx, howner 2 htwo, howner 3 hthree, hread, ?_⟩
  exact Option.some.inj ((htext .service).symm.trans hread)

end MessageHeap

end MRpc
