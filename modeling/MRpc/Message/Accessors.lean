import MRpc.Message.Records

/-!
# The accessors of a message

The accessors of `src/rpc.pb.h` do to the record that an object stands for what their names say, and
nothing to any other message. A setter makes a string for the object or writes the one it has;
`release_` and `set_allocated_` move a string between the object and the caller, so that it has one
owner at all times, and what the object had before is deleted.

## Main results

* `MessageHeap.acts_setType`, `MessageHeap.acts_clearType` and their like for `id` and `error`.
* `MessageHeap.acts_changeString`, `MessageHeap.acts_setString`, `MessageHeap.acts_clearString`: the
  strings.
* `MessageHeap.Inv.step_releaseString`, `MessageHeap.acts_setAllocatedNull`,
  `MessageHeap.Inv.step_setAllocatedString`: strings that change hands.
-/

namespace MRpc

open FixedWidth Function UniqueOwner

namespace MessageHeap

variable {s s' : MessageHeap} {m : Ptr} {C : MessageHeap → Prop}
  {op op' : MessageHeap → Option MessageHeap} {h h' : RpcMessage → RpcMessage}

/-! ### The fields that are numbers -/

section Scalars

variable {o o' : MessageObject} {strings : Ptr → Option Bytes} {bit : Nat} {b : Bool}

/-- The bits of an object after one of them was set or reset. -/
def BitsAfter (o o' : MessageObject) (bit : Nat) (b : Bool) : Prop :=
  ∀ j < 7, o'.has j = if j = bit then b else o.has j

theorem bitsAfter_setHas (o : MessageObject) (hbit : bit < 7) :
    BitsAfter o (o.setHas bit) bit true := by
  intro j hj
  rw [o.has_setHas hbit hj]
  by_cases h : j = bit
  · simp [h]
  · simp [h, Ne.symm h]

theorem bitsAfter_clearHas (o : MessageObject) (hbit : bit < 7) :
    BitsAfter o (o.clearHas bit) bit false := by
  intro j hj
  rw [o.has_clearHas hbit hj]
  by_cases h : j = bit
  · simp [h]
  · simp [h, Ne.symm h]

theorem BitsAfter.has_str (H : BitsAfter o o' bit b) (hbit : ∀ f : StringField, f.bit ≠ bit)
    (f : StringField) : o'.has f.bit = o.has f.bit := by
  rw [H _ f.bit_lt, if_neg (hbit f)]

/-- An object stays valid if the field whose bit has changed is valid. -/
theorem BitsAfter.valid (H : BitsAfter o o' bit b) (hvalid : o.Valid strings)
    (hbit : ∀ f : StringField, f.bit ≠ bit) (hstr : o'.str = o.str)
    (htype : if bit = typeBit then
      (∃ t : MessageType, o'.type = t.toNat) ∧ (b = false → o'.type = 0)
      else o'.type = o.type)
    (hid : if bit = idBit then b = false → o'.id = 0 else o'.id = o.id)
    (herror : if bit = errorBit then
      (∃ e : RpcErrorCode, o'.error = e.toNat) ∧ (b = false → o'.error = 0)
      else o'.error = o.error) : o'.Valid strings := by
  have htext : ∀ f, o'.text strings f = o.text strings f :=
    MessageObject.text_congr hstr fun _ _ _ => rfl
  have hhas := H.has_str hbit
  have htypeBit := H typeBit (by decide)
  have hidBit := H idBit (by decide)
  have herrorBit := H errorBit (by decide)
  refine ⟨fun f hf => ?_, fun f hf => ?_, ?_, fun h => ?_, fun h => ?_, ?_, fun h => ?_⟩
  · rw [hstr]
    exact hvalid.own f (hhas f ▸ hf)
  · rw [htext]
    exact hvalid.text_unset f (hhas f ▸ hf)
  · split_ifs at htype with hb
    · exact htype.1
    · rw [htype]
      exact hvalid.type
  · split_ifs at htype with hb
    · rw [if_pos hb.symm] at htypeBit
      exact htype.2 (htypeBit ▸ h)
    · rw [if_neg (Ne.symm hb)] at htypeBit
      rw [htype]
      exact hvalid.type_unset (htypeBit ▸ h)
  · split_ifs at hid with hb
    · rw [if_pos hb.symm] at hidBit
      exact hid (hidBit ▸ h)
    · rw [if_neg (Ne.symm hb)] at hidBit
      rw [hid]
      exact hvalid.id_unset (hidBit ▸ h)
  · split_ifs at herror with hb
    · exact herror.1
    · rw [herror]
      exact hvalid.error
  · split_ifs at herror with hb
    · rw [if_pos hb.symm] at herrorBit
      exact herror.2 (herrorBit ▸ h)
    · rw [if_neg (Ne.symm hb)] at herrorBit
      rw [herror]
      exact hvalid.error_unset (herrorBit ▸ h)

/-- The strings of the message are the same. -/
theorem BitsAfter.str_view (H : BitsAfter o o' bit b) (hbit : ∀ f : StringField, f.bit ≠ bit)
    (hstr : o'.str = o.str) (f : StringField) :
    (o'.view strings).str f = (o.view strings).str f := by
  rw [MessageObject.str_view, MessageObject.str_view, H.has_str hbit,
    MessageObject.text_congr hstr fun _ _ _ => rfl]

theorem BitsAfter.type?_view (H : BitsAfter o o' bit b) (hne : typeBit ≠ bit)
    (h : o'.type = o.type) : (o'.view strings).type? = (o.view strings).type? := by
  simp only [MessageObject.view, H typeBit (by decide), if_neg hne, h]

theorem BitsAfter.id?_view (H : BitsAfter o o' bit b) (hne : idBit ≠ bit) (h : o'.id = o.id) :
    (o'.view strings).id? = (o.view strings).id? := by
  simp only [MessageObject.view, H idBit (by decide), if_neg hne, h]

theorem BitsAfter.error?_view (H : BitsAfter o o' bit b) (hne : errorBit ≠ bit)
    (h : o'.error = o.error) : (o'.view strings).error? = (o.view strings).error? := by
  simp only [MessageObject.view, H errorBit (by decide), if_neg hne, h]

end Scalars

theorem acts_setType (value : MessageType) :
    Acts C m (fun s => s.setType m value) fun x => { x with type? := some value } := by
  refine Acts.edit (fun _ => rfl) (fun s o _ _ H => ?_) fun s o _ _ H => ?_ <;>
    have hbits : BitsAfter o { o.setHas typeBit with type := value.toNat } typeBit true :=
      bitsAfter_setHas o (by decide)
  · exact hbits.valid H (fun f => f.bit_ne.1) rfl ⟨⟨value, rfl⟩, by simp⟩ rfl rfl
  · refine RpcMessage.ext_str ?_ (hbits.id?_view (by decide) rfl)
      (hbits.error?_view (by decide) rfl) (hbits.str_view (fun f => f.bit_ne.1) rfl)
    simp only [MessageObject.view, hbits typeBit (by decide), if_true, MessageType.ofNat?_toNat]

theorem acts_clearType :
    Acts C m (fun s => s.clearType m) fun x => { x with type? := none } := by
  refine Acts.edit (fun _ => rfl) (fun s o _ _ H => ?_) fun s o _ _ H => ?_ <;>
    have hbits : BitsAfter o ({ o with type := 0 }.clearHas typeBit) typeBit false :=
      bitsAfter_clearHas { o with type := 0 } (by decide)
  · exact hbits.valid H (fun f => f.bit_ne.1) rfl ⟨⟨.unknow, rfl⟩, fun _ => rfl⟩ rfl rfl
  · refine RpcMessage.ext_str ?_ (hbits.id?_view (by decide) rfl)
      (hbits.error?_view (by decide) rfl) (hbits.str_view (fun f => f.bit_ne.1) rfl)
    simp only [MessageObject.view, hbits typeBit (by decide), if_true, Bool.false_eq_true, if_false]

theorem acts_setId (value : UInt64) :
    Acts C m (fun s => s.setId m value) fun x => { x with id? := some value } := by
  refine Acts.edit (fun _ => rfl) (fun s o _ _ H => ?_) fun s o _ _ H => ?_ <;>
    have hbits : BitsAfter o { o.setHas idBit with id := value } idBit true :=
      bitsAfter_setHas o (by decide)
  · exact hbits.valid H (fun f => f.bit_ne.2.1) rfl rfl (by simp) rfl
  · refine RpcMessage.ext_str (hbits.type?_view (by decide) rfl) ?_
      (hbits.error?_view (by decide) rfl) (hbits.str_view (fun f => f.bit_ne.2.1) rfl)
    simp only [MessageObject.view, hbits idBit (by decide), if_true]

theorem acts_clearId : Acts C m (fun s => s.clearId m) fun x => { x with id? := none } := by
  refine Acts.edit (fun _ => rfl) (fun s o _ _ H => ?_) fun s o _ _ H => ?_ <;>
    have hbits : BitsAfter o ({ o with id := 0 }.clearHas idBit) idBit false :=
      bitsAfter_clearHas { o with id := 0 } (by decide)
  · exact hbits.valid H (fun f => f.bit_ne.2.1) rfl rfl (fun _ => rfl) rfl
  · refine RpcMessage.ext_str (hbits.type?_view (by decide) rfl) ?_
      (hbits.error?_view (by decide) rfl) (hbits.str_view (fun f => f.bit_ne.2.1) rfl)
    simp only [MessageObject.view, hbits idBit (by decide), if_true, Bool.false_eq_true, if_false]

theorem acts_setError (value : RpcErrorCode) :
    Acts C m (fun s => s.setError m value) fun x => { x with error? := some value } := by
  refine Acts.edit (fun _ => rfl) (fun s o _ _ H => ?_) fun s o _ _ H => ?_ <;>
    have hbits : BitsAfter o { o.setHas errorBit with error := value.toNat } errorBit true :=
      bitsAfter_setHas o (by decide)
  · exact hbits.valid H (fun f => f.bit_ne.2.2) rfl rfl rfl ⟨⟨value, rfl⟩, by simp⟩
  · refine RpcMessage.ext_str (hbits.type?_view (by decide) rfl) (hbits.id?_view (by decide) rfl)
      ?_ (hbits.str_view (fun f => f.bit_ne.2.2) rfl)
    simp only [MessageObject.view, hbits errorBit (by decide), if_true, RpcErrorCode.ofNat?_toNat]

theorem acts_clearError :
    Acts C m (fun s => s.clearError m) fun x => { x with error? := none } := by
  refine Acts.edit (fun _ => rfl) (fun s o _ _ H => ?_) fun s o _ _ H => ?_ <;>
    have hbits : BitsAfter o ({ o with error := 0 }.clearHas errorBit) errorBit false :=
      bitsAfter_clearHas { o with error := 0 } (by decide)
  · exact hbits.valid H (fun f => f.bit_ne.2.2) rfl rfl rfl ⟨⟨.noError, rfl⟩, fun _ => rfl⟩
  · refine RpcMessage.ext_str (hbits.type?_view (by decide) rfl) (hbits.id?_view (by decide) rfl)
      ?_ (hbits.str_view (fun f => f.bit_ne.2.2) rfl)
    simp only [MessageObject.view, hbits errorBit (by decide), if_true, Bool.false_eq_true,
      if_false]

/-! ### The fields that are strings -/

section Strings

variable {o o' : MessageObject} {strings strings' : Ptr → Option Bytes} {f : StringField} {b : Bool}
  {v : Bytes} {p : Ptr}

/-- From `o` to `o'` the field `f` gets the text `v`, and is set or not. -/
structure StringAfter (o o' : MessageObject) (strings strings' : Ptr → Option Bytes)
    (f : StringField) (b : Bool) (v : Bytes) : Prop where
  bits : BitsAfter o o' f.bit b
  numbers : o'.type = o.type ∧ o'.id = o.id ∧ o'.error = o.error
  str : ∀ f', f' ≠ f → o'.str f' = o.str f'
  own : b = true → o'.str f ≠ none
  text : ∀ f', o'.text strings' f' = if f' = f then v else o.text strings f'
  unset : b = false → v = []

theorem StringAfter.has (H : StringAfter o o' strings strings' f b v) (f' : StringField) :
    o'.has f'.bit = if f' = f then b else o.has f'.bit := by
  rw [H.bits _ f'.bit_lt]
  simp only [StringField.bit_inj]

theorem StringAfter.valid (H : StringAfter o o' strings strings' f b v)
    (hvalid : o.Valid strings) : o'.Valid strings' := by
  have htype := H.bits typeBit (by decide)
  have hid := H.bits idBit (by decide)
  have herror := H.bits errorBit (by decide)
  rw [if_neg f.bit_ne.1.symm] at htype
  rw [if_neg f.bit_ne.2.1.symm] at hid
  rw [if_neg f.bit_ne.2.2.symm] at herror
  obtain ⟨htype', hid', herror'⟩ := H.numbers
  refine ⟨fun f' hf' => ?_, fun f' hf' => ?_, htype' ▸ hvalid.type, ?_, ?_, herror' ▸ hvalid.error,
    ?_⟩
  · rw [H.has] at hf'
    split_ifs at hf' with hff
    · rw [hff]
      exact H.own hf'
    · rw [H.str f' hff]
      exact hvalid.own f' hf'
  · rw [H.has] at hf'
    rw [H.text]
    split_ifs at hf' ⊢ with hff
    · exact H.unset hf'
    · exact hvalid.text_unset f' hf'
  · rw [htype, htype']
    exact hvalid.type_unset
  · rw [hid, hid']
    exact hvalid.id_unset
  · rw [herror, herror']
    exact hvalid.error_unset

theorem StringAfter.view_eq (H : StringAfter o o' strings strings' f b v) :
    o'.view strings' = (o.view strings).withStr f (if b then some v else none) := by
  obtain ⟨htype, hid, herror⟩ := H.numbers
  refine RpcMessage.ext_str ?_ ?_ ?_ fun f' => ?_
  · rw [RpcMessage.type?_withStr]
    exact (H.bits.type?_view f.bit_ne.1.symm htype : (o'.view strings).type? = _)
  · rw [RpcMessage.id?_withStr]
    exact (H.bits.id?_view f.bit_ne.2.1.symm hid : (o'.view strings).id? = _)
  · rw [RpcMessage.error?_withStr]
    exact (H.bits.error?_view f.bit_ne.2.2.symm herror : (o'.view strings).error? = _)
  · rw [RpcMessage.str_withStr, MessageObject.str_view, MessageObject.str_view, H.has, H.text]
    by_cases hff : f' = f
    · simp only [hff, if_true]
    · simp only [hff, if_false]

/-- A string of an object belongs to one of its fields. -/
theorem Inv.field_unique (H : Inv s) (ho : s.objects m = some o) {f' : StringField}
    (hp : o.str f = some p) (hp' : o.str f' = some p) : f' = f := by
  have heq := H.owned.unique p _ _ (owns_field ho hp) (owns_field ho hp')
  cases heq
  rfl

/-- What is at the pointer of a field is there, and is what the getter returns. -/
theorem Inv.exists_string (H : Inv s) (ho : s.objects m = some o) (hp : o.str f = some p) :
    s.strings p = some (o.text s.strings f) := by
  obtain ⟨v, hv⟩ := H.owned.exists_of_owns (owns_field ho hp)
  simp only [MessageObject.text, hp, Option.bind_some, hv, Option.getD_some]

/-- The texts after the field has got another pointer. -/
theorem text_setStr {x : Option Ptr} (hstr : o'.str = update o.str f x)
    (hother : ∀ f' q, f' ≠ f → o.str f' = some q → strings' q = strings q) (f' : StringField) :
    o'.text strings' f' = if f' = f then (x.bind strings').getD [] else o.text strings f' := by
  rw [MessageObject.text, hstr]
  split_ifs with hff
  · rw [hff, update_self]
  · rw [update_of_ne hff, MessageObject.text]
    cases hq : o.str f' with
    | none => rfl
    | some q => rw [Option.bind_some, Option.bind_some, hother f' q hff hq]

/-- Who owns what after the field has got another pointer. -/
theorem owns_setStr {t : MessageHeap} {x : Option Ptr} (ho : s.objects m = some o)
    (hobjects : t.objects = update s.objects m (some o')) (hstr : o'.str = update o.str f x)
    {m' : Ptr} {f' : StringField} {q : Ptr} :
    t.Owns (.field m' f') q ↔
      if m' = m ∧ f' = f then x = some q else s.Owns (.field m' f') q := by
  rw [owns_update hobjects, hstr]
  by_cases hm' : m' = m
  · by_cases hff : f' = f
    · simp [hm', hff]
    · simp [hm', hff, Owns, ho]
  · simp [hm']

/-- The string of a field is written, and its bit is set or reset. -/
theorem Inv.turns_write (H : Inv s) (ho : s.objects m = some o) (hp : o.str f = some p)
    (hstr : o'.str = o.str) (hbits : BitsAfter o o' f.bit b)
    (hnumbers : o'.type = o.type ∧ o'.id = o.id ∧ o'.error = o.error) (hv : b = false → v = []) :
    Turns m (fun x => x.withStr f (if b then some v else none)) s
      { s with
        strings := update s.strings p (some v)
        objects := update s.objects m (some o') } := by
  have hsome : s.strings p ≠ none := by
    rw [H.exists_string ho hp]
    exact Option.some_ne_none _
  have hlt : p < s.fresh := Nat.lt_of_not_le fun hge => hsome (H.strings_none p hge)
  have hother : ∀ f' q, f' ≠ f → o.str f' = some q →
      update s.strings p (some v) q = s.strings q := by
    intro f' q hff hq
    refine update_of_ne ?_ _ _
    rintro rfl
    exact hff (H.field_unique ho hp hq)
  have hafter : StringAfter o o' s.strings (update s.strings p (some v)) f b v := by
    refine ⟨hbits, hnumbers, fun f' _ => by rw [hstr], fun _ => ?_, fun f' => ?_, hv⟩
    · rw [hstr, hp]
      exact Option.some_ne_none p
    · rw [text_setStr (x := some p) (by rw [hstr, ← hp, update_eq_self]) hother, Option.bind_some,
        update_self, Option.getD_some]
  refine H.turns ho rfl rfl ?_ (fun w q hw hq => ?_) (hafter.valid (H.valid m o ho))
    (fun q hq => ?_) (Nat.le_refl _) hafter.view_eq
  · exact (H.owned.write hsome v).rename Function.bijective_id (owns_iff_of_str ho rfl rfl hstr)
  · exact update_of_ne (H.owned.frame hq (owns_field ho hp) (hw f)) _ _
  · have hne : q ≠ p := Nat.ne_of_gt (Nat.lt_of_lt_of_le hlt hq)
    exact (update_of_ne hne _ _).trans (H.strings_none q hq)

/-- The field gets a new string, and its bit is set. -/
theorem Inv.turns_alloc (H : Inv s) (ho : s.objects m = some o) (hp : o.str f = none) (v : Bytes) :
    Turns m (fun x => x.withStr f (some v)) s
      { s with
        strings := update s.strings s.fresh (some v)
        objects := update s.objects m (some ((o.setHas f.bit).setStr f (some s.fresh)))
        fresh := s.fresh + 1 } := by
  have hfresh : s.strings s.fresh = none := H.strings_none _ (Nat.le_refl _)
  have hne : ∀ w q, s.Owns w q → q ≠ s.fresh := by
    rintro w q hq rfl
    exact (H.owned.allocated_iff _).mpr ⟨w, hq⟩ hfresh
  have hafter : StringAfter o ((o.setHas f.bit).setStr f (some s.fresh)) s.strings
      (update s.strings s.fresh (some v)) f true v := by
    refine ⟨bitsAfter_setHas o f.bit_lt, ⟨rfl, rfl, rfl⟩,
      fun f' hff => update_of_ne hff _ _, fun _ => ?_, fun f' => ?_, by simp⟩
    · simp [MessageObject.setStr]
    · rw [text_setStr (o := o) (x := some s.fresh) rfl
        (fun f' q _ hq => update_of_ne (hne _ q (owns_field ho hq)) _ _), Option.bind_some,
        update_self, Option.getD_some]
  refine H.turns ho rfl rfl ?_ (fun w q _ hq => update_of_ne (hne w q hq) _ _)
    (hafter.valid (H.valid m o ho)) (fun q hq => ?_) (Nat.le_succ _) hafter.view_eq
  · refine H.owned.alloc (w := .field m f) hfresh v fun w q => ?_
    cases w with
    | field m' f' =>
      rw [owns_setStr ho rfl rfl, StringOwner.field.injEq]
      split_ifs with hmf
      · obtain ⟨rfl, rfl⟩ := hmf
        have hnot : ¬ s.Owns (.field m' f') q := by
          rintro ⟨o', ho', hq⟩
          cases ho.symm.trans ho'
          rw [hp] at hq
          cases hq
        simp [hnot, eq_comm]
      · simp [hmf]
    | caller => simp [Owns]
  · have hlt : s.fresh < q := hq
    exact (update_of_ne (Nat.ne_of_gt hlt) _ _).trans (H.strings_none q (Nat.le_of_lt hlt))

end Strings

/-- `mutable_service` and the like, and a change of the string. -/
theorem acts_changeString (f : StringField) (g : Bytes → Bytes) :
    Acts C m (fun s => s.changeString m f g)
      fun x => x.withStr f (some (g ((x.str f).getD []))) := by
  intro s hs hm _
  obtain ⟨o, ho⟩ := Option.ne_none_iff_exists'.mp hm
  -- What the getter returns is what the record has.
  have htext : ∀ x, s.spec.messages m = some x →
      x.withStr f (some (g (o.text s.strings f))) = x.withStr f (some (g ((x.str f).getD []))) := by
    intro x hx
    rw [messages_spec ho] at hx
    cases hx
    rw [(hs.valid m o ho).getters.2.2.2 f]
  cases hp : o.str f with
  | some p =>
    refine ⟨_, ?_, (hs.turns_write (b := true) ho hp (rfl : (o.setHas f.bit).str = o.str)
      (bitsAfter_setHas o f.bit_lt) ⟨rfl, rfl, rfl⟩ (by simp)).congr htext⟩
    simp [changeString, mutableString, edit, assign, ho, hp, MessageObject.setHas,
      hs.exists_string ho hp]
  | none =>
    have htext' : o.text s.strings f = [] := by simp [MessageObject.text, hp]
    refine ⟨_, ?_, (hs.turns_alloc ho hp (g (o.text s.strings f))).congr htext⟩
    simp [changeString, mutableString, edit, assign, ho, hp, MessageObject.setHas, htext']

theorem acts_setString (f : StringField) (value : Bytes) :
    Acts C m (fun s => s.setString m f value) fun x => x.withStr f (some value) :=
  acts_changeString f fun _ => value

/-- The bit of a field without a string is reset. -/
theorem Inv.turns_clearHas (H : Inv s) {o : MessageObject} {f : StringField}
    (ho : s.objects m = some o) (hp : o.str f = none) :
    Turns m (fun x => x.withStr f none) s
      { s with objects := update s.objects m (some (o.clearHas f.bit)) } := by
  have hafter : StringAfter o (o.clearHas f.bit) s.strings s.strings f false [] := by
    refine ⟨bitsAfter_clearHas o f.bit_lt, ⟨rfl, rfl, rfl⟩, fun _ _ => rfl, by simp, fun f' => ?_,
      fun _ => rfl⟩
    rw [text_setStr (o := o) (x := none) (by rw [← hp, update_eq_self]; rfl) fun _ _ _ _ => rfl]
    rfl
  exact H.turns_edit ho rfl (hafter.valid (H.valid m o ho)) hafter.view_eq

/-- `clear_service` and the like: the object keeps its string, which is empty. -/
theorem acts_clearString (f : StringField) :
    Acts C m (fun s => s.clearString m f) fun x => x.withStr f none := by
  intro s hs hm _
  obtain ⟨o, ho⟩ := Option.ne_none_iff_exists'.mp hm
  have hbits := bitsAfter_clearHas o f.bit_lt
  cases hp : o.str f with
  | some p =>
    have hstr : (o.clearHas f.bit).str = o.str := rfl
    refine ⟨_, ?_, hs.turns_write (b := false) (v := []) ho hp hstr hbits ⟨rfl, rfl, rfl⟩
      fun _ => rfl⟩
    simp [clearString, emptyString, edit, assign, ho, hp, hs.exists_string ho hp]
  | none =>
    refine ⟨_, ?_, hs.turns_clearHas ho hp⟩
    simp [clearString, emptyString, edit, ho, hp]

/-! ### Strings that change hands -/

section Hands

variable {o : MessageObject} {f : StringField} {p : Ptr}

/-- A string of the caller is no string of an object. -/
theorem Inv.not_held (H : Inv s) (ho : s.objects m = some o) (hp : o.str f = some p) :
    s.held p = false := by
  rw [Bool.eq_false_iff]
  intro hheld
  cases H.owned.unique p _ _ (owns_field ho hp) (owns_caller hheld)

/-- The heap after the object has handed the string of the field over to the caller. -/
def released (s : MessageHeap) (m : Ptr) (o : MessageObject) (f : StringField) (p : Ptr) :
    MessageHeap :=
  { s with
    objects := update s.objects m (some ((o.clearHas f.bit).setStr f none))
    held := update s.held p true }

theorem Inv.owned_released (H : Inv s) (ho : s.objects m = some o) (hp : o.str f = some p) :
    Owned (s.released m o f p).strings (s.released m o f p).Owns := by
  refine H.owned.transfer (v := .caller) (owns_field ho hp) fun w q => ?_
  cases w with
  | field m' f' =>
    rw [owns_setStr (t := s.released m o f p) ho rfl rfl]
    split_ifs with hmf
    · obtain ⟨rfl, rfl⟩ := hmf
      simp [Owns, ho, hp, eq_comm]
    · simp only [false_and, false_or, iff_and_self]
      rintro hq rfl
      cases H.owned.unique q _ _ hq (owns_field ho hp)
      exact hmf ⟨rfl, rfl⟩
  | caller =>
    by_cases hq : q = p
    · simp [hq, Owns, released]
    · simp [hq, Owns, released]

/-- `release_service` and the like. -/
theorem Inv.step_releaseString (H : Inv s) (ho : s.objects m = some o) (f : StringField) :
    ∃ s', s.step (.releaseString m f) = some s' ∧ Inv s' ∧
      s.spec.Step (.releaseString m f) s'.spec := by
  cases hp : o.str f with
  | none =>
    obtain ⟨hinv, -, -, x, hx, hs'⟩ := H.turns_clearHas ho hp
    refine ⟨_, by simp [step, releaseString, edit, ho, hp, MessageObject.clearHas], hinv, x, hx, ?_,
      Or.inl ⟨?_, ?_⟩⟩
    · exact congrArg MessageSpec.messages hs'
    · rw [messages_spec ho] at hx
      cases hx
      have hhas : o.has f.bit = false := by
        rw [Bool.eq_false_iff]
        exact fun hhas => (H.valid m o ho).own f hhas hp
      rw [MessageObject.str_view, hhas]
      rfl
    · rw [hs']
  | some p =>
    have hafter :
        StringAfter o ((o.clearHas f.bit).setStr f none) s.strings s.strings f false [] := by
      refine ⟨bitsAfter_clearHas o f.bit_lt, ⟨rfl, rfl, rfl⟩, fun f' hff => update_of_ne hff _ _,
        by simp, fun f' => ?_, fun _ => rfl⟩
      rw [text_setStr (o := o) (x := none) rfl fun _ _ _ _ => rfl]
      rfl
    obtain ⟨hinv, hmessages⟩ := H.replace (t := s.released m o f p) (by simp [ho]) rfl
      (H.owned_released ho hp) (fun _ _ _ _ => rfl) (hafter.valid (H.valid m o ho))
      H.strings_none (Nat.le_refl _)
    refine ⟨s.released m o f p, ?_, hinv, _, messages_spec ho, ?_, Or.inr ⟨p, ?_, ?_⟩⟩
    · simp [step, releaseString, edit, ho, hp, MessageObject.clearHas, released]
    · exact hmessages.trans (congrArg (fun x => update s.spec.messages m (some x)) hafter.view_eq)
    · simp [spec, H.not_held ho hp]
    · rw [← (H.valid m o ho).getters.2.2.2 f, ← H.exists_string ho hp]
      funext q
      by_cases hq : q = p
      · simp [hq, spec, released]
      · simp [hq, spec, released]

/-- The strings without that of the field. -/
def dropped (s : MessageHeap) (o : MessageObject) (f : StringField) : Ptr → Option Bytes :=
  fun q => if o.str f = some q then none else s.strings q

theorem deleteOwnString_eq (h : ∀ p, o.str f = some p → s.strings p ≠ none) :
    s.deleteOwnString o f = some { s with strings := s.dropped o f } := by
  simp only [deleteOwnString]
  cases hp : o.str f with
  | none =>
    have hdropped : s.dropped o f = s.strings := by
      funext q
      simp [dropped, hp]
    rw [hdropped]
  | some p =>
    obtain ⟨v, hv⟩ := Option.ne_none_iff_exists'.mp (h p hp)
    have hdropped : update s.strings p none = s.dropped o f := by
      funext q
      simp only [dropped, hp, Option.some.injEq, update_apply, eq_comm]
    simp [deleteString, hv, hdropped]

theorem dropped_of_ne {q : Ptr} (h : o.str f ≠ some q) : s.dropped o f q = s.strings q := if_neg h

/-- Who is not the field owns none of its strings. -/
theorem Inv.str_ne (H : Inv s) (ho : s.objects m = some o) {w : StringOwner} {q : Ptr}
    (hw : w ≠ .field m f) (hq : s.Owns w q) : o.str f ≠ some q :=
  fun hp => hw (H.owned.unique q _ _ hq (owns_field ho hp))

theorem Inv.str_ne_held (H : Inv s) (ho : s.objects m = some o) {q : Ptr} (hq : s.held q = true) :
    o.str f ≠ some q := H.str_ne ho (by simp) (owns_caller hq)

/-- The strings of the other fields stay. -/
theorem Inv.dropped_other (H : Inv s) (ho : s.objects m = some o) {f' : StringField} (hf : f' ≠ f)
    (hp : o.str f' = some p) : s.dropped o f p = s.strings p := by
  refine dropped_of_ne (H.str_ne ho (w := .field m f') ?_ (owns_field ho hp))
  simpa using hf

/-- What `set_allocated_service` and the like do first. -/
theorem setAllocatedString_eq (ho : s.objects m = some o) (f : StringField) (value : Option Ptr) :
    s.setAllocatedString m f value = (s.deleteOwnString o f).bind fun s =>
      match value with
      | some q => do
        let s ← s.edit m fun o => (o.setHas f.bit).setStr f (some q)
        return { s with held := update s.held q false }
      | none => s.edit m fun o => (o.clearHas f.bit).setStr f none := by
  simp only [setAllocatedString, ho, Option.bind_eq_bind, Option.bind_some, deleteOwnString]
  cases o.str f <;> rfl

/-- `set_allocated_service(NULL)` and the like. -/
theorem acts_setAllocatedNull (f : StringField) :
    Acts C m (fun s => s.setAllocatedString m f none) fun x => x.withStr f none := by
  intro s hs hm _
  obtain ⟨o, ho⟩ := Option.ne_none_iff_exists'.mp hm
  let o' := (o.clearHas f.bit).setStr f none
  let s' : MessageHeap :=
    { s with strings := s.dropped o f, objects := update s.objects m (some o') }
  have hafter : StringAfter o o' s.strings s'.strings f false [] := by
    refine ⟨bitsAfter_clearHas o f.bit_lt, ⟨rfl, rfl, rfl⟩, fun f' hff => update_of_ne hff _ _,
      by simp, fun f' => ?_, fun _ => rfl⟩
    exact (text_setStr (o := o) (x := none) rfl (fun f' q => hs.dropped_other ho) f').trans rfl
  refine ⟨s', ?_, hs.turns ho rfl rfl ?_ (fun w q hw hq => ?_) (hafter.valid (hs.valid m o ho))
    (fun q hq => ?_) (Nat.le_refl _) hafter.view_eq⟩
  · simp only [setAllocatedString_eq ho]
    rw [deleteOwnString_eq fun p hp => ?_]
    · simp [edit, ho, s', o']
    · rw [hs.exists_string ho hp]
      exact Option.some_ne_none _
  · refine hs.owned.free (fun q => o.str f = some q) (fun q hq => if_pos hq)
      (fun q hq => if_neg hq) fun w q => ?_
    cases w with
    | field m' f' =>
      rw [owns_setStr (t := s') ho rfl rfl]
      split_ifs with hmf
      · obtain ⟨rfl, rfl⟩ := hmf
        simp [Owns, ho]
      · rw [iff_and_self]
        exact hs.str_ne ho (by simpa using hmf)
    | caller =>
      exact ⟨fun hq => ⟨hs.str_ne_held ho hq, hq⟩, And.right⟩
  · exact dropped_of_ne (hs.str_ne ho (hw f) hq)
  · simp only [s', dropped, hs.strings_none q hq, ite_self]

/-- The heap after the object has taken a string of the caller in place of its own. -/
def adopted (s : MessageHeap) (m : Ptr) (o : MessageObject) (f : StringField) (q : Ptr) :
    MessageHeap :=
  { s with
    strings := s.dropped o f
    objects := update s.objects m (some ((o.setHas f.bit).setStr f (some q)))
    held := update s.held q false }

theorem Inv.owned_adopted (H : Inv s) (ho : s.objects m = some o) {q : Ptr}
    (hq : s.held q = true) : Owned (s.adopted m o f q).strings (s.adopted m o f q).Owns := by
  have hfree : Owned (s.dropped o f) fun w r => ¬ o.str f = some r ∧ s.Owns w r :=
    H.owned.free (fun r => o.str f = some r) (fun r hr => if_pos hr) (fun r hr => if_neg hr)
      fun _ _ => Iff.rfl
  refine hfree.transfer (w := .caller) (v := .field m f) ⟨H.str_ne_held ho hq, hq⟩ fun w r => ?_
  cases w with
  | field m' f' =>
    rw [owns_setStr (t := s.adopted m o f q) ho rfl rfl]
    split_ifs with hmf
    · obtain ⟨rfl, rfl⟩ := hmf
      simp [Owns, ho, eq_comm]
    · have hw : StringOwner.field m' f' ≠ .field m f := by simpa using hmf
      simp only [hw, false_and, false_or]
      refine ⟨fun hr => ⟨?_, H.str_ne ho hw hr, hr⟩, fun hr => hr.2.2⟩
      rintro rfl
      cases H.owned.unique r _ _ hr (owns_caller hq)
  | caller =>
    have hsame : (s.adopted m o f q).Owns .caller r ↔ r ≠ q ∧ s.Owns .caller r := by
      by_cases hr : r = q
      · simp [Owns, adopted, hr]
      · simp [Owns, adopted, hr]
    rw [hsame]
    simp only [reduceCtorEq, false_and, false_or]
    exact and_congr_right fun _ => ⟨fun hr => ⟨H.str_ne_held ho hr, hr⟩, And.right⟩

theorem Inv.stringAfter_adopted (H : Inv s) (ho : s.objects m = some o) {q : Ptr} {v : Bytes}
    (hq : s.held q = true) (hv : s.strings q = some v) :
    StringAfter o ((o.setHas f.bit).setStr f (some q)) s.strings (s.dropped o f) f true v := by
  refine ⟨bitsAfter_setHas o f.bit_lt, ⟨rfl, rfl, rfl⟩, fun f' hff => update_of_ne hff _ _,
    fun _ => by simp [MessageObject.setStr], fun f' => ?_, by simp⟩
  have hq' : s.dropped o f q = some v := (dropped_of_ne (H.str_ne_held ho hq)).trans hv
  rw [text_setStr (o := o) (x := some q) rfl fun f' r => H.dropped_other ho, Option.bind_some, hq',
    Option.getD_some]

/-- `set_allocated_service` and the like, with a string of the caller. -/
theorem Inv.step_setAllocatedString (H : Inv s) (ho : s.objects m = some o) (f : StringField)
    {q : Ptr} (hq : s.held q = true) :
    ∃ s', s.step (.setAllocatedString m f (some q)) = some s' ∧ Inv s' ∧
      s.spec.Step (.setAllocatedString m f (some q)) s'.spec := by
  obtain ⟨v, hv⟩ := H.owned.exists_of_owns (owns_caller hq)
  have hafter := H.stringAfter_adopted (f := f) ho hq hv
  obtain ⟨hinv, hmessages⟩ := H.replace (t := s.adopted m o f q) (by simp [ho]) rfl
    (H.owned_adopted ho hq) (fun w r hw hr => dropped_of_ne (H.str_ne ho (hw f) hr))
    (hafter.valid (H.valid m o ho))
    (fun r hr => by simp only [adopted, dropped, H.strings_none r hr, ite_self]) (Nat.le_refl _)
  refine ⟨s.adopted m o f q, ?_, hinv, _, v, messages_spec ho, by simp [spec, hq, hv], ?_⟩
  · simp only [step, setAllocatedString_eq ho]
    rw [deleteOwnString_eq fun p hp => ?_]
    · simp [edit, ho, adopted]
    · rw [H.exists_string ho hp]
      exact Option.some_ne_none _
  · have hheld : (s.adopted m o f q).spec.held = update s.spec.held q none := by
      funext r
      by_cases hr : r = q
      · simp [spec, adopted, hr]
      · rw [update_of_ne hr]
        exact held_congr (update_of_ne hr _ _) fun hr' => dropped_of_ne (H.str_ne_held ho hr')
    have hview : (s.adopted m o f q).spec.messages = _ :=
      hmessages.trans (congrArg (fun x => update s.spec.messages m (some x)) hafter.view_eq)
    rw [← hheld]
    exact congrArg (fun messages => MessageSpec.mk messages (s.adopted m o f q).spec.held) hview

end Hands

end MessageHeap

end MRpc
