import MRpc.Lib.UniqueOwner
import MRpc.Message.Object

/-!
# Messages as records

What the rest of this development takes a message to be, a record of optional fields, is what the
objects of `src/rpc.pb.h` are for. Here is the abstract machine of such records and of the strings
that belong to the caller, and the invariant under which the heap of objects and strings refines it:
a field whose bit is not set reads as its default, whatever is left behind the pointer, and every
string has one owner, which is a field of one object or the caller.

The abstract machine is not deterministic in one place. When a field that is not set is released,
the caller gets `NULL` or an empty string, which depends on whether the object ever had a string of
its own there.

## Main definitions

* `MessageSpec`, `MessageSpec.Step`, `MessageSpec.Run`: the abstract machine.
* `MessageObject.view`, `MessageHeap.spec`: what the objects stand for.
* `MessageObject.Valid`, `MessageHeap.Inv`: the invariant.
* `MessageHeap.Turns`, `MessageHeap.Acts`: an operation on one message that does what a function of
  records says.

## Main results

* `MessageObject.Valid.getters`: what the getters return.
* `MessageHeap.Inv.replace`: one object is replaced, and the others stand for what they did.
* `MessageHeap.Acts.bind`: operations one after the other.
-/

namespace MRpc

open FixedWidth BitFlags Function UniqueOwner

/-! ### The abstract machine -/

/-- A field of a message that is a string. -/
def RpcMessage.str (m : RpcMessage) : StringField → Option Bytes
  | .service => m.service?
  | .method => m.method?
  | .request => m.request?
  | .response => m.response?

/-- The message with another value for the field. -/
def RpcMessage.withStr (m : RpcMessage) (f : StringField) (v : Option Bytes) : RpcMessage :=
  match f with
  | .service => { m with service? := v }
  | .method => { m with method? := v }
  | .request => { m with request? := v }
  | .response => { m with response? := v }

/-- The messages there are, and the strings that belong to the caller. -/
structure MessageSpec where
  messages : Ptr → Option RpcMessage
  held : Ptr → Option Bytes

namespace MessageSpec

/-- There is nothing. -/
def empty : MessageSpec := ⟨fun _ => none, fun _ => none⟩

/-- The message `m` becomes `h` of what it was, and nothing else happens. -/
def Becomes (A : MessageSpec) (m : Ptr) (h : RpcMessage → RpcMessage) (B : MessageSpec) : Prop :=
  ∃ x, A.messages m = some x ∧ B = { A with messages := update A.messages m (some (h x)) }

/-- What an operation is for. -/
def Step (A : MessageSpec) : MessageAction → MessageSpec → Prop
  | .new, B => ∃ m, A.messages m = none ∧
      B = { A with messages := update A.messages m (some .empty) }
  | .delete m, B => A.messages m ≠ none ∧ B = { A with messages := update A.messages m none }
  | .newString value, B => ∃ p, A.held p = none ∧
      B = { A with held := update A.held p (some value) }
  | .deleteHeld p, B => A.held p ≠ none ∧ B = { A with held := update A.held p none }
  | .setType m value, B => A.Becomes m (fun x => { x with type? := some value }) B
  | .clearType m, B => A.Becomes m (fun x => { x with type? := none }) B
  | .setId m value, B => A.Becomes m (fun x => { x with id? := some value }) B
  | .clearId m, B => A.Becomes m (fun x => { x with id? := none }) B
  | .setError m value, B => A.Becomes m (fun x => { x with error? := some value }) B
  | .clearError m, B => A.Becomes m (fun x => { x with error? := none }) B
  | .changeString m f g, B =>
      A.Becomes m (fun x => x.withStr f (some (g ((x.str f).getD [])))) B
  | .setString m f value, B => A.Becomes m (fun x => x.withStr f (some value)) B
  | .clearString m f, B => A.Becomes m (fun x => x.withStr f none) B
  | .releaseString m f, B => ∃ x, A.messages m = some x ∧
      B.messages = update A.messages m (some (x.withStr f none)) ∧
      (x.str f = none ∧ B.held = A.held ∨
        ∃ p, A.held p = none ∧ B.held = update A.held p (some ((x.str f).getD [])))
  | .setAllocatedString m f none, B => A.Becomes m (fun x => x.withStr f none) B
  | .setAllocatedString m f (some q), B => ∃ x v, A.messages m = some x ∧ A.held q = some v ∧
      B = ⟨update A.messages m (some (x.withStr f (some v))), update A.held q none⟩
  | .clear m, B => A.Becomes m (fun _ => .empty) B
  | .mergeFrom m source, B => ∃ y, A.messages source = some y ∧
      A.Becomes m (fun x => x.mergeFrom y) B
  | .copyFrom m source, B => ∃ y, A.messages source = some y ∧ A.Becomes m (fun _ => y) B
  | .swap m other, B => ∃ x y, A.messages m = some x ∧ A.messages other = some y ∧
      B = { A with messages := update (update A.messages m (some y)) other (some x) }

/-- A run of the abstract machine. -/
inductive Run : MessageSpec → List MessageAction → MessageSpec → Prop
  | nil (A : MessageSpec) : Run A [] A
  | cons {A B C : MessageSpec} {a : MessageAction} {as : List MessageAction} (h : A.Step a B)
      (hrun : Run B as C) : Run A (a :: as) C

end MessageSpec

/-! ### What an object stands for -/

namespace RpcMessage

variable {m m' : RpcMessage}

theorem ext_str (ht : m.type? = m'.type?) (hi : m.id? = m'.id?) (he : m.error? = m'.error?)
    (hs : ∀ f, m.str f = m'.str f) : m = m' := by
  obtain ⟨hservice, hmethod, hrequest, hresponse⟩ :=
    And.intro (hs .service) (And.intro (hs .method) (And.intro (hs .request) (hs .response)))
  cases m
  cases m'
  simp only [str] at *
  simp only [ht, hi, he, hservice, hmethod, hrequest, hresponse]

@[simp] theorem type?_withStr (m : RpcMessage) (f : StringField) (v : Option Bytes) :
    (m.withStr f v).type? = m.type? := by
  cases f <;> rfl

@[simp] theorem id?_withStr (m : RpcMessage) (f : StringField) (v : Option Bytes) :
    (m.withStr f v).id? = m.id? := by
  cases f <;> rfl

@[simp] theorem error?_withStr (m : RpcMessage) (f : StringField) (v : Option Bytes) :
    (m.withStr f v).error? = m.error? := by
  cases f <;> rfl

theorem str_withStr (m : RpcMessage) (f f' : StringField) (v : Option Bytes) :
    (m.withStr f v).str f' = if f' = f then v else m.str f' := by
  cases f <;> cases f' <;> rfl

theorem withStr_str (m : RpcMessage) (f : StringField) : m.withStr f (m.str f) = m := by
  cases f <;> rfl

end RpcMessage

theorem StringField.bit_lt (f : StringField) : f.bit < 7 := by
  cases f <;> decide

theorem StringField.bit_inj {f f' : StringField} : f.bit = f'.bit ↔ f = f' := by
  cases f <;> cases f' <;> decide

theorem StringField.bit_ne (f : StringField) :
    f.bit ≠ typeBit ∧ f.bit ≠ idBit ∧ f.bit ≠ errorBit := by
  cases f <;> decide

namespace MessageObject

variable {o o' : MessageObject} {strings strings' : Ptr → Option Bytes}

/-- What `service()` and the like return. -/
def text (o : MessageObject) (strings : Ptr → Option Bytes) (f : StringField) : Bytes :=
  ((o.str f).bind strings).getD []

/-- The message that an object stands for: the fields whose bits are set. -/
def view (o : MessageObject) (strings : Ptr → Option Bytes) : RpcMessage where
  type? := if o.has typeBit then MessageType.ofNat? o.type else none
  id? := if o.has idBit then some o.id else none
  service? := if o.has StringField.service.bit then some (o.text strings .service) else none
  method? := if o.has StringField.method.bit then some (o.text strings .method) else none
  request? := if o.has StringField.request.bit then some (o.text strings .request) else none
  response? := if o.has StringField.response.bit then some (o.text strings .response) else none
  error? := if o.has errorBit then RpcErrorCode.ofNat? o.error else none

/-- A field that is set has a string of its own, and one that is not set reads as its default. -/
structure Valid (o : MessageObject) (strings : Ptr → Option Bytes) : Prop where
  own : ∀ f : StringField, o.has f.bit = true → o.str f ≠ none
  text_unset : ∀ f : StringField, o.has f.bit = false → o.text strings f = []
  type : ∃ t : MessageType, o.type = t.toNat
  type_unset : o.has typeBit = false → o.type = 0
  id_unset : o.has idBit = false → o.id = 0
  error : ∃ e : RpcErrorCode, o.error = e.toNat
  error_unset : o.has errorBit = false → o.error = 0

theorem str_view (o : MessageObject) (strings : Ptr → Option Bytes) (f : StringField) :
    (o.view strings).str f = if o.has f.bit then some (o.text strings f) else none := by
  cases f <;> rfl

theorem has_setHas (o : MessageObject) {i j : Nat} (hi : i < 7) (hj : j < 7) :
    (o.setHas i).has j = (o.has j || decide (i = j)) := test_set _ (by omega) (by omega)

theorem has_clearHas (o : MessageObject) {i j : Nat} (hi : i < 7) (hj : j < 7) :
    (o.clearHas i).has j = (o.has j && !decide (i = j)) := test_reset _ (by omega) (by omega)

theorem text_congr (hstr : o'.str = o.str)
    (h : ∀ f p, o.str f = some p → strings' p = strings p) (f : StringField) :
    o'.text strings' f = o.text strings f := by
  rw [text, text, hstr]
  cases hp : o.str f with
  | none => rfl
  | some p => rw [Option.bind_some, Option.bind_some, h f p hp]

/-- An object depends on the strings that it points to only. -/
theorem view_congr (h : ∀ f p, o.str f = some p → strings' p = strings p) :
    o.view strings' = o.view strings := by
  refine RpcMessage.ext_str rfl rfl rfl fun f => ?_
  rw [str_view, str_view, text_congr rfl h]

theorem Valid.congr (H : o.Valid strings) (h : ∀ f p, o.str f = some p → strings' p = strings p) :
    o.Valid strings' :=
  { H with text_unset := fun f hf => by rw [text_congr rfl h, H.text_unset f hf] }

theorem valid_new (strings : Ptr → Option Bytes) : new.Valid strings :=
  ⟨fun _ h => by simp [has, new] at h, fun _ _ => rfl, ⟨.unknow, rfl⟩, fun _ => rfl, fun _ => rfl,
    ⟨.noError, rfl⟩, fun _ => rfl⟩

theorem view_new (strings : Ptr → Option Bytes) : new.view strings = .empty := by
  simp [view, has, new, RpcMessage.empty]

/-- What the getters return is what the record has, or the default of the field. -/
theorem Valid.getters (H : o.Valid strings) :
    MessageType.ofNat? o.type = some (o.view strings).type ∧ o.id = (o.view strings).id ∧
      RpcErrorCode.ofNat? o.error = some ((o.view strings).error?.getD .noError) ∧
      ∀ f, o.text strings f = ((o.view strings).str f).getD [] := by
  refine ⟨?_, ?_, ?_, fun f => ?_⟩
  · obtain ⟨t, ht⟩ := H.type
    cases hhas : o.has typeBit with
    | true => simp [RpcMessage.type, view, hhas, ht, MessageType.ofNat?_toNat]
    | false => simp [RpcMessage.type, view, hhas, H.type_unset hhas, MessageType.ofNat?]
  · cases hhas : o.has idBit with
    | true => simp [RpcMessage.id, view, hhas]
    | false => simp [RpcMessage.id, view, hhas, H.id_unset hhas]
  · obtain ⟨e, he⟩ := H.error
    cases hhas : o.has errorBit with
    | true => simp [view, hhas, he, RpcErrorCode.ofNat?_toNat]
    | false => simp [view, hhas, H.error_unset hhas, RpcErrorCode.ofNat?]
  · rw [str_view]
    cases hhas : o.has f.bit with
    | true => simp
    | false => simp [H.text_unset f hhas]

end MessageObject

/-! ### The invariant -/

/-- Who can own a string. -/
inductive StringOwner
  | field (m : Ptr) (f : StringField)
  | caller

namespace MessageHeap

variable {s s' : MessageHeap}

/-- The string at `p` belongs to this owner. -/
def Owns (s : MessageHeap) : StringOwner → Ptr → Prop
  | .field m f, p => ∃ o, s.objects m = some o ∧ o.str f = some p
  | .caller, p => s.held p = true

theorem owns_field {m : Ptr} {o : MessageObject} {f : StringField} {p : Ptr}
    (ho : s.objects m = some o) (hp : o.str f = some p) : s.Owns (.field m f) p := ⟨o, ho, hp⟩

theorem owns_caller {p : Ptr} (hp : s.held p = true) : s.Owns .caller p := hp

/-- What the heap stands for. -/
def spec (s : MessageHeap) : MessageSpec where
  messages m := (s.objects m).map fun o => o.view s.strings
  held p := if s.held p then s.strings p else none

/-- Every object is valid, and every string has one owner. -/
structure Inv (s : MessageHeap) : Prop where
  valid : ∀ m o, s.objects m = some o → o.Valid s.strings
  owned : Owned s.strings s.Owns
  strings_none : ∀ p : Nat, s.fresh ≤ p → s.strings p = none
  objects_none : ∀ m : Nat, s.fresh ≤ m → s.objects m = none

theorem messages_spec {m : Ptr} {o : MessageObject} (h : s.objects m = some o) :
    s.spec.messages m = some (o.view s.strings) := by
  simp only [spec, h, Option.map_some]

/-- A message is the same if its object and the strings of this object are. -/
theorem messages_congr {m : Ptr} (hobjects : s'.objects m = s.objects m)
    (hstrings : ∀ o f p, s.objects m = some o → o.str f = some p → s'.strings p = s.strings p) :
    s'.spec.messages m = s.spec.messages m := by
  simp only [spec, hobjects]
  cases ho : s.objects m with
  | none => rfl
  | some o =>
    rw [Option.map_some, Option.map_some,
      MessageObject.view_congr fun f p hp => hstrings o f p ho hp]

theorem held_congr {q : Ptr} (hheld : s'.held q = s.held q)
    (hstrings : s.held q = true → s'.strings q = s.strings q) :
    s'.spec.held q = s.spec.held q := by
  simp only [spec, hheld]
  split_ifs with hq
  · exact hstrings hq
  · rfl

/-- A new heap is empty, and stands for nothing. -/
theorem inv_empty : Inv empty := by
  have hnot : ∀ w p, ¬ empty.Owns w p := by
    rintro (⟨m, f⟩ | -) p
    · rintro ⟨o, ho, -⟩
      cases ho
    · exact Bool.false_ne_true
  refine ⟨fun m o ho => (nomatch ho), ⟨fun p => ?_, fun p w w' hw => absurd hw (hnot w p)⟩,
    fun _ _ => rfl, fun _ _ => rfl⟩
  exact iff_of_false (fun h => h rfl) fun ⟨w, hw⟩ => hnot w p hw

/-- Who owns what after the object `m` was replaced. -/
theorem owns_update {t : MessageHeap} {m : Ptr} {o : MessageObject}
    (h : t.objects = update s.objects m (some o)) {m' : Ptr} {f : StringField} {p : Ptr} :
    t.Owns (.field m' f) p ↔
      m' = m ∧ o.str f = some p ∨ m' ≠ m ∧ s.Owns (.field m' f) p := by
  simp only [Owns, h]
  by_cases hm : m' = m
  · subst hm
    simp
  · simp [hm]

/-- The strings that do not belong to the message `m` are the same in both heaps. -/
def Frame (m : Ptr) (s s' : MessageHeap) : Prop :=
  ∀ w p, (∀ f, w ≠ .field m f) → s.Owns w p → s'.strings p = s.strings p

/-- One object is replaced, and no string of another owner is touched. -/
theorem Inv.replace (H : Inv s) {t : MessageHeap} {m : Ptr} {o : MessageObject}
    (ho : s.objects m ≠ none)
    (hobjects : t.objects = update s.objects m (some o)) (howned : Owned t.strings t.Owns)
    (hframe : Frame m s t) (hvalid : o.Valid t.strings)
    (hnone : ∀ p : Nat, t.fresh ≤ p → t.strings p = none) (hle : s.fresh ≤ t.fresh) :
    Inv t ∧ t.spec.messages = update s.spec.messages m (some (o.view t.strings)) := by
  have hlt : m < s.fresh := Nat.lt_of_not_le fun hge => ho (H.objects_none m hge)
  -- The objects at other addresses, and their strings, are what they were.
  have hsame : ∀ m' o' f p, m' ≠ m → s.objects m' = some o' → o'.str f = some p →
      t.strings p = s.strings p := by
    intro m' o' f p hne ho' hp
    refine hframe (.field m' f) p (fun f' heq => hne ?_) ⟨o', ho', hp⟩
    cases heq
    rfl
  refine ⟨⟨fun m' o' ho' => ?_, howned, hnone, fun m' hm' => ?_⟩, funext fun m' => ?_⟩
  · rw [hobjects] at ho'
    by_cases hm : m' = m
    · rw [hm, update_self] at ho'
      cases ho'
      exact hvalid
    · rw [update_of_ne hm] at ho'
      exact (H.valid m' o' ho').congr fun f p => hsame m' o' f p hm ho'
  · have hge : s.fresh ≤ m' := hle.trans hm'
    rw [hobjects, update_of_ne (Nat.ne_of_gt (Nat.lt_of_lt_of_le hlt hge))]
    exact H.objects_none m' hge
  · by_cases hm : m' = m
    · rw [hm, update_self]
      exact messages_spec (by rw [hobjects, update_self])
    · rw [update_of_ne hm]
      exact messages_congr (by rw [hobjects, update_of_ne hm]) fun o' f p => hsame m' o' f p hm

/-- The strings of the caller are the same if nobody touches them. -/
theorem held_spec {m : Ptr} (hframe : Frame m s s') (hheld : s'.held = s.held) :
    s'.spec.held = s.spec.held := by
  funext p
  exact held_congr (by rw [hheld]) fun hp => hframe .caller p (fun _ h => nomatch h) hp

/-! ### Operations on one message -/

/-- From `s` to `s'` the message `m` becomes `h` of what it was, and nothing else happens. -/
structure Turns (m : Ptr) (h : RpcMessage → RpcMessage) (s s' : MessageHeap) : Prop where
  inv : Inv s'
  alive : s'.objects m ≠ none
  others : ∀ m', m' ≠ m → s'.objects m' = s.objects m'
  becomes : s.spec.Becomes m h s'.spec

/-- In every state with `C`, the operation does not fault, and makes `h` of the message `m`. -/
def Acts (C : MessageHeap → Prop) (m : Ptr) (op : MessageHeap → Option MessageHeap)
    (h : RpcMessage → RpcMessage) : Prop :=
  ∀ s, Inv s → s.objects m ≠ none → C s → ∃ s', op s = some s' ∧ Turns m h s s'

variable {m : Ptr} {C : MessageHeap → Prop} {op op' : MessageHeap → Option MessageHeap}
  {h h' : RpcMessage → RpcMessage}

theorem Turns.congr (H : Turns m h s s') (hh : ∀ x, s.spec.messages m = some x → h x = h' x) :
    Turns m h' s s' := by
  obtain ⟨x, hx, hs'⟩ := H.becomes
  exact ⟨H.inv, H.alive, H.others, x, hx, hh x hx ▸ hs'⟩

theorem Turns.trans {s'' : MessageHeap} (H : Turns m h s s') (H' : Turns m h' s' s'') :
    Turns m (fun x => h' (h x)) s s'' := by
  obtain ⟨x, hx, hs'⟩ := H.becomes
  obtain ⟨y, hy, hs''⟩ := H'.becomes
  refine ⟨H'.inv, H'.alive, fun m' hm' => (H'.others m' hm').trans (H.others m' hm'), x, hx, ?_⟩
  simp only [hs', update_self] at hy
  cases hy
  rw [hs'', hs', update_idem]

/-- The condition is not affected by what happens to the message `m`. -/
def Kept (m : Ptr) (C : MessageHeap → Prop) : Prop := ∀ h s s', Turns m h s s' → C s → C s'

/-- Two operations one after the other. -/
theorem Acts.bind (hC : Kept m C) (H : Acts C m op h) (H' : Acts C m op' h') :
    Acts C m (fun s => (op s).bind op') fun x => h' (h x) := by
  intro s hs hm hCs
  obtain ⟨s', hop, hturns⟩ := H s hs hm hCs
  obtain ⟨s'', hop', hturns'⟩ := H' s' hturns.inv hturns.alive (hC h s s' hturns hCs)
  exact ⟨s'', by simp only [hop, Option.bind_some, hop'], hturns.trans hturns'⟩

/-- One object is replaced, by one that stands for what `h` says. -/
theorem Inv.turns (H : Inv s) {o o' : MessageObject} (ho : s.objects m = some o)
    (hobjects : s'.objects = update s.objects m (some o')) (hheld : s'.held = s.held)
    (howned : Owned s'.strings s'.Owns) (hframe : Frame m s s') (hvalid : o'.Valid s'.strings)
    (hnone : ∀ p : Nat, s'.fresh ≤ p → s'.strings p = none) (hle : s.fresh ≤ s'.fresh)
    (hview : o'.view s'.strings = h (o.view s.strings)) : Turns m h s s' := by
  have hsome : s.objects m ≠ none := by
    rw [ho]
    exact Option.some_ne_none o
  obtain ⟨hinv, hmessages⟩ := H.replace hsome hobjects howned hframe hvalid hnone hle
  refine ⟨hinv, ?_, fun m' hm' => ?_, _, messages_spec ho, ?_⟩
  · rw [hobjects, update_self]
    exact Option.some_ne_none o'
  · rw [hobjects, update_of_ne hm']
  · rw [← hview, ← hmessages, ← held_spec hframe hheld]

/-- The owners are the same if the pointers of the object are. -/
theorem owns_iff_of_str {o o' : MessageObject} (ho : s.objects m = some o)
    (hobjects : s'.objects = update s.objects m (some o')) (hheld : s'.held = s.held)
    (hstr : o'.str = o.str) (w : StringOwner) (p : Ptr) : s'.Owns w p ↔ s.Owns w p := by
  cases w with
  | field m' f =>
    rw [owns_update hobjects, hstr]
    by_cases hm' : m' = m
    · simp [hm', Owns, ho]
    · simp [hm']
  | caller => simp only [Owns, hheld]

/-- The members of an object are changed, and no pointer. -/
theorem Inv.turns_edit (H : Inv s) {o o' : MessageObject} (ho : s.objects m = some o)
    (hstr : o'.str = o.str) (hvalid : o'.Valid s.strings)
    (hview : o'.view s.strings = h (o.view s.strings)) :
    Turns m h s { s with objects := update s.objects m (some o') } :=
  H.turns ho rfl rfl (H.owned.rename Function.bijective_id (owns_iff_of_str ho rfl rfl hstr))
    (fun _ _ _ _ => rfl) hvalid H.strings_none (Nat.le_refl _) hview

/-- Nothing happens. -/
theorem Inv.turns_refl (H : Inv s) (hm : s.objects m ≠ none)
    (hid : ∀ x, s.spec.messages m = some x → h x = x) : Turns m h s s := by
  obtain ⟨o, ho⟩ := Option.ne_none_iff_exists'.mp hm
  refine ⟨H, hm, fun _ _ => rfl, _, messages_spec ho, ?_⟩
  rw [hid _ (messages_spec ho), ← messages_spec ho, update_eq_self]

/-- An operation that changes members of the object, and no pointer. -/
theorem Acts.edit {g : MessageObject → MessageObject} (hstr : ∀ o, (g o).str = o.str)
    (hvalid : ∀ s o, C s → s.objects m = some o → o.Valid s.strings → (g o).Valid s.strings)
    (hview : ∀ s o, C s → s.objects m = some o → o.Valid s.strings →
      (g o).view s.strings = h (o.view s.strings)) :
    Acts C m (fun s => s.edit m g) h := by
  intro s hs hm hC
  obtain ⟨o, ho⟩ := Option.ne_none_iff_exists'.mp hm
  have H := hs.valid m o ho
  exact ⟨_, by simp only [MessageHeap.edit, ho]; rfl,
    hs.turns_edit ho (hstr o) (hvalid s o hC ho H) (hview s o hC ho H)⟩

end MessageHeap

end MRpc
