import MRpc.Message.FastPath

/-!
# The grammar of the messages

What the generated parser accepts, without reference to how it reads: a message is a sequence of
fields in any order, and a field is a tag and a content of the kind that the tag announces. A field
that occurs more than once is set by its last occurrence, an enumeration value that is not declared
sets nothing, and neither does a field that the message does not know. What a tag, a string and a
field that is skipped look like is up to protobuf (`Words`).

Reading is deterministic although the grammar does not look so: a reader finds where a word ends.
So the parser accepts exactly the strings of the grammar, and concatenating two of them merges their
messages, as `MergeFrom` does.

## Main definitions

* `Words.Field`, `Words.Derives`: one field and what it does to a message, and the strings of
  fields.

## Main results

* `CodedInput.Lawful.plainRound_field`, `CodedInput.Lawful.exists_field_of_again`: one round reads
  one field.
* `CodedInput.Lawful.parseFromStream_iff_derives`: the parser accepts the grammar.
* `CodedInput.Lawful.parseFromStream_append`: concatenation is merging.
-/

namespace MRpc

open FixedWidth Reading WhileLoop RpcMessage

/-! ### The grammar -/

/-- The tags of the fields of `RpcMessage`. -/
def fieldTags : List Nat := [8, 17, 26, 34, 42, 50, 56]

namespace Words

/-- The bytes of one field, and what it does to a message. -/
inductive Field (W : Words) : Bytes → (RpcMessage → RpcMessage) → Prop
  | known {tag : Nat} {f : RpcMessage → RpcMessage} {t v : Bytes} (ht : W.tag tag t)
      (hv : W.Content tag f v) : Field W (t ++ v) f
  | unknown {tag : Nat} {t v : Bytes} (ht : W.tag tag t) (htag : tag ∉ fieldTags)
      (hend : tag % 8 ≠ 4) (hv : W.skipped tag v) : Field W (t ++ v) fun m => m

/-- The fields in a string of bytes make one message of another. -/
inductive Derives (W : Words) : RpcMessage → Bytes → RpcMessage → Prop
  | nil {m : RpcMessage} : Derives W m [] m
  | cons {m m' : RpcMessage} {bytes rest : Bytes} {f : RpcMessage → RpcMessage}
      (hfield : W.Field bytes f) (hrest : Derives W (f m) rest m') : Derives W m (bytes ++ rest) m'

variable {W : Words}

theorem Content.mem {tag : Nat} {f : RpcMessage → RpcMessage} {v : Bytes}
    (h : W.Content tag f v) : tag ∈ fieldTags := by
  rw [Content.eq_def] at h
  split at h
  case h_8 => exact h.elim
  all_goals decide

theorem Derives.append {m m' m'' : RpcMessage} {x y : Bytes} (hx : W.Derives m x m')
    (hy : W.Derives m' y m'') : W.Derives m (x ++ y) m'' := by
  induction hx with
  | nil => exact hy
  | cons hfield _ ih =>
    rw [List.append_assoc]
    exact .cons hfield (ih hy)

/-! ### Fields and merging -/

/-- What a field sets it sets whatever was merged before. -/
theorem Content.mergeFrom {tag : Nat} {f : RpcMessage → RpcMessage} {v : Bytes}
    (h : W.Content tag f v) (m other : RpcMessage) :
    f (m.mergeFrom other) = m.mergeFrom (f other) := by
  have htype (value : Int) :
      withType value (m.mergeFrom other) = m.mergeFrom (withType value other) := by
    rcases value with n | n
    · simp only [withType]
      cases MessageType.ofNat? n <;> rfl
    · rfl
  have herror (value : Int) :
      withError value (m.mergeFrom other) = m.mergeFrom (withError value other) := by
    rcases value with n | n
    · simp only [withError]
      cases RpcErrorCode.ofNat? n <;> rfl
    · rfl
  rw [Content.eq_def] at h
  split at h
  case h_8 => exact h.elim
  all_goals obtain ⟨value, -, rfl⟩ := h
  case h_1 => exact htype value
  case h_7 => exact herror value
  all_goals rfl

theorem Field.mergeFrom {bytes : Bytes} {f : RpcMessage → RpcMessage} (h : W.Field bytes f)
    (m other : RpcMessage) : f (m.mergeFrom other) = m.mergeFrom (f other) := by
  cases h with
  | known ht hv => exact hv.mergeFrom m other
  | unknown ht htag hend hv => rfl

theorem Derives.mergeFrom {other m' : RpcMessage} {input : Bytes} (h : W.Derives other input m')
    (m : RpcMessage) : W.Derives (m.mergeFrom other) input (m.mergeFrom m') := by
  induction h with
  | nil => exact .nil
  | cons hfield _ ih => exact .cons hfield (hfield.mergeFrom m _ ▸ ih)

/-- The fields of an input do not depend on the message that they are read into. -/
theorem Derives.exists_of_mergeFrom {m other m' : RpcMessage} {input : Bytes}
    (h : W.Derives (m.mergeFrom other) input m') :
    ∃ b, W.Derives other input b ∧ m' = m.mergeFrom b := by
  generalize hstart : m.mergeFrom other = start at h
  induction h generalizing other with
  | nil => exact ⟨other, .nil, hstart.symm⟩
  | @cons start m' bytes rest f hfield _ ih =>
    have hread : m.mergeFrom (f other) = f start := by rw [← hstart, hfield.mergeFrom]
    obtain ⟨b, hb, hm'⟩ := ih hread
    exact ⟨b, .cons hfield hb, hm'⟩

end Words

namespace CodedInput

variable {σ : Type} {lib : CodedInput σ} {W : Words}

theorem fieldReader_eq_none_iff (lib : CodedInput σ) {tag : Nat} :
    lib.fieldReader tag = none ↔ tag ∉ fieldTags := by
  simp only [fieldTags, List.mem_cons, List.not_mem_nil, or_false, not_or]
  rw [fieldReader.eq_def]
  split <;> simp_all

namespace Lawful

variable (H : lib.Lawful W)
include H

/-! ### One round reads one field -/

/-- The round on a field. -/
theorem plainRound_field {bytes rest : Bytes} {f : RpcMessage → RpcMessage} (h : W.Field bytes f)
    {s : ParseState σ} (hs : lib.left s.stream = bytes ++ rest) :
    ∃ t, lib.plainRound s = .again ⟨none, f s.msg, t, false⟩ ∧ lib.left t = rest := by
  cases h with
  | @known tag f t v ht hv =>
    rw [List.append_assoc] at hs
    obtain ⟨s', htag, hleft⟩ := H.takes_tag.read_word ht hs
    cases hfield : lib.fieldReader tag with
    | none => exact absurd hv.mem ((fieldReader_eq_none_iff lib).mp hfield)
    | some read =>
      obtain ⟨u, hread, hrest⟩ := (H.takesField hfield).read_content (m := s.msg) hv hleft
      refine ⟨u, ?_, hrest⟩
      simp only [plainRound, htag, plainField, hfield, hread, ↓reduceIte]
  | @unknown tag t v ht htag hend hv =>
    rw [List.append_assoc] at hs
    obtain ⟨s', hread, hleft⟩ := H.takes_tag.read_word ht hs
    obtain ⟨u, hskip, hrest⟩ := (H.takes_skipped tag).read_word (b := ()) hv hleft
    have hfield := (fieldReader_eq_none_iff lib).mpr htag
    have hnot : ¬ (tag = 0 ∨ tag % 8 = 4) := by simp [(H.tag_ne ht).1, hend]
    rw [succeeds_eq_some_iff] at hskip
    refine ⟨u, ?_, hrest⟩
    simp only [plainRound, hread, plainField, hfield, handleUnusual, hnot, hskip, ↓reduceIte]

/-- A round that is followed by another one has read a field. -/
theorem exists_field_of_again {s s' : ParseState σ} (h : lib.plainRound s = .again s') :
    ∃ bytes f, W.Field bytes f ∧ lib.left s.stream = bytes ++ lib.left s'.stream ∧
      s'.msg = f s.msg := by
  rw [plainRound] at h
  rcases htag : lib.readTag s.stream with ⟨_ | tag, u⟩ <;> rw [htag] at h
  · cases h
  obtain ⟨t, ht, hs⟩ := H.takes_tag.exists_word htag
  simp only [plainField] at h
  cases hfield : lib.fieldReader tag with
  | none =>
    rw [hfield] at h
    obtain ⟨hend, hmsg, -, v, hv, hleft⟩ := H.handleUnusual_again h
    exact ⟨t ++ v, _, .unknown ht ((fieldReader_eq_none_iff lib).mp hfield) hend hv,
      by rw [hs, hleft, List.append_assoc], hmsg⟩
  | some read =>
    simp only [hfield] at h
    split_ifs at h with hok
    · obtain rfl := Round.again.inj h
      obtain ⟨f, v, hv, hleft, hmsg⟩ := (H.takesField hfield).exists_content hok
      exact ⟨t ++ v, f, .known ht hv, by rw [hs, hleft, List.append_assoc], hmsg⟩
    · cases h

/-- The loop ends with success, and with the whole input consumed, in a round that finds nothing
left. -/
theorem left_eq_nil_of_done {s s' : ParseState σ} (h : lib.plainRound s = .done s')
    (hok : s'.ok = true) (hconsumed : lib.consumedEntireMessage s'.stream = true) :
    lib.left s.stream = [] ∧ s'.msg = s.msg := by
  rw [plainRound] at h
  rcases htag : lib.readTag s.stream with ⟨_ | tag, u⟩ <;> rw [htag] at h
  · obtain rfl := Round.done.inj h
    exact ⟨(H.consumed_none htag).mp hconsumed, rfl⟩
  · exfalso
    have hfails {t : ParseState σ} (ht : t.ok = false) (heq : Round.done t = .done s') : False := by
      rw [← Round.done.inj heq, ht] at hok
      cases hok
    simp only [plainField] at h
    cases hfield : lib.fieldReader tag with
    | none =>
      simp only [hfield, handleUnusual] at h
      split_ifs at h
      · obtain rfl := Round.done.inj h
        rw [H.consumed_some htag] at hconsumed
        cases hconsumed
      · split at h
        case h_1 => cases h
        case h_2 => exact hfails rfl h
    | some read =>
      simp only [hfield] at h
      split_ifs at h
      exact hfails rfl h

/-! ### The parser accepts the grammar -/

/-- A stream that begins with fields is read up to their end. -/
theorem mergePlain_of_derives {m m' : RpcMessage} {x y : Bytes} (h : W.Derives m x m') {s : σ}
    (hs : lib.left s = x ++ y) :
    ∃ t, lib.left t = y ∧ lib.mergePlain m s = lib.mergePlain m' t := by
  induction h generalizing s with
  | nil => exact ⟨s, hs, rfl⟩
  | @cons m m' bytes rest f hfield _ ih =>
    rw [List.append_assoc] at hs
    obtain ⟨u, hround, hleft⟩ := H.plainRound_field hfield (s := ⟨none, m, s, false⟩) hs
    obtain ⟨t, ht, heq⟩ := ih hleft
    refine ⟨t, ht, Eq.trans ?_ heq⟩
    exact eval_again H.decreasing_plainRound hround

theorem derives_of_eval {s p : ParseState σ}
    (h : WhileLoop.eval lib.plainRound lib.size s = some p) (hok : p.ok = true)
    (hconsumed : lib.consumedEntireMessage p.stream = true) :
    W.Derives s.msg (lib.left s.stream) p.msg := by
  induction hn : lib.size s using Nat.strongRecOn generalizing s with
  | _ n ih =>
    cases hround : lib.plainRound s with
    | done s' =>
      obtain rfl : s' = p := Option.some.inj ((eval_done hround).symm.trans h)
      obtain ⟨hnil, hmsg⟩ := H.left_eq_nil_of_done hround hok hconsumed
      rw [hnil, hmsg]
      exact .nil
    | again s' =>
      obtain ⟨bytes, f, hfield, hleft, hmsg⟩ := H.exists_field_of_again hround
      have hlt := H.decreasing_plainRound _ _ hround
      rw [eval_again H.decreasing_plainRound hround] at h
      rw [hleft]
      exact .cons hfield (hmsg ▸ ih _ (hn ▸ hlt) h rfl)

/-- The parser succeeds as the plain loop does. -/
theorem parseFromStream_iff_mergePlain {m m' : RpcMessage} {s : σ} :
    lib.parseFromStream m s = (true, m') ↔ ∃ q, lib.mergePlain m s = some q ∧ q.ok = true ∧
      lib.consumedEntireMessage q.stream = true ∧ q.msg = m' := by
  obtain ⟨p, q, hp, hq, hok, hmsg, hconsumed⟩ := H.exists_mergePlain m s
  rw [parseFromStream, hp, hq]
  simp only [Prod.mk.injEq, Bool.and_eq_true, Option.some.injEq, exists_eq_left']
  constructor
  · rintro ⟨⟨hpok, hpc⟩, rfl⟩
    exact ⟨hok ▸ hpok, hconsumed hpok ▸ hpc, hmsg.symm⟩
  · rintro ⟨hqok, hqc, rfl⟩
    have hpok := hok.trans hqok
    exact ⟨⟨hpok, (hconsumed hpok).trans hqc⟩, hmsg⟩

theorem derives_of_parseFromStream {m m' : RpcMessage} {s : σ}
    (h : lib.parseFromStream m s = (true, m')) : W.Derives m (lib.left s) m' := by
  obtain ⟨q, hq, hok, hconsumed, rfl⟩ := H.parseFromStream_iff_mergePlain.mp h
  exact H.derives_of_eval hq hok hconsumed

theorem parseFromStream_of_derives {m m' : RpcMessage} {s : σ}
    (h : W.Derives m (lib.left s) m') : lib.parseFromStream m s = (true, m') := by
  obtain ⟨t, hnil, heq⟩ := H.mergePlain_of_derives h (List.append_nil _).symm
  refine H.parseFromStream_iff_mergePlain.mpr ?_
  have hread : lib.readTag t = (none, (lib.readTag t).2) := Prod.ext (H.readTag_of_nil hnil) rfl
  refine ⟨⟨none, m', (lib.readTag t).2, true⟩, ?_, rfl, (H.consumed_none hread).mpr hnil, rfl⟩
  rw [heq]
  exact eval_done (by rw [plainRound, hread]; rfl)

/-- **The parser accepts the grammar.** On every stream, `MergePartialFromCodedStream` returns true
with the whole input consumed and makes `m'` of the message `m` exactly if the input is a sequence
of fields that makes `m'` of `m`: in any order, with repeated fields and with unknown ones. So what
is accepted is well formed, and everything well formed is accepted. -/
theorem parseFromStream_iff_derives (m m' : RpcMessage) (s : σ) :
    lib.parseFromStream m s = (true, m') ↔ W.Derives m (lib.left s) m' :=
  ⟨H.derives_of_parseFromStream, H.parseFromStream_of_derives⟩

omit H in
/-- A type that is set twice and a field that is not known; and a field without its content. -/
theorem parseFromStream_iff_derives_plain :
    PlainStream.words.Derives .empty [120, 5, 8, 1, 26, 1, 65, 8, 2]
        { RpcMessage.empty with type? := some .response, service? := some [65] } ∧
      ∀ m, ¬ PlainStream.words.Derives .empty [120, 5, 8] m := by
  have hiff := PlainStream.lawful.parseFromStream_iff_derives
  constructor
  · exact (hiff _ _ ⟨[120, 5, 8, 1, 26, 1, 65, 8, 2], false⟩).mp (by decide +kernel)
  · intro m hm
    have hparse := (hiff .empty m ⟨[120, 5, 8], false⟩).mpr hm
    have hfails : PlainStream.codedInput.parseFromStream .empty ⟨[120, 5, 8], false⟩ =
      (false, .empty) := by decide +kernel
    rw [hfails] at hparse
    cases hparse

/-! ### Concatenation is merging -/

/-- The fields of a concatenation, where the first part is a sequence of fields. -/
theorem derives_of_append {m m' m'' : RpcMessage} {x y : Bytes} (hx : W.Derives m x m') {s t : σ}
    (hs : lib.left s = x ++ y) (ht : lib.left t = y)
    (h : lib.parseFromStream m s = (true, m'')) : lib.parseFromStream m' t = (true, m'') := by
  obtain ⟨q, hq, hok, hconsumed, rfl⟩ := H.parseFromStream_iff_mergePlain.mp h
  obtain ⟨u, hu, heq⟩ := H.mergePlain_of_derives hx hs
  rw [heq] at hq
  have hderives := H.derives_of_eval hq hok hconsumed
  refine H.parseFromStream_of_derives ?_
  rw [ht, ← hu]
  exact hderives

/-- **Concatenation is merging.** If a stream parses, then the concatenation of its input with a
second one parses exactly if the second one does, and the message is the first one with the fields
of the second one merged into it, as `MergeFrom` does. -/
theorem parseFromStream_append {s₁ s₂ s : σ} (happend : lib.left s = lib.left s₁ ++ lib.left s₂)
    {a : RpcMessage} (h₁ : lib.parseFromStream .empty s₁ = (true, a)) (m : RpcMessage) :
    lib.parseFromStream .empty s = (true, m) ↔
      ∃ b, lib.parseFromStream .empty s₂ = (true, b) ∧ m = a.mergeFrom b := by
  have hderives := H.derives_of_parseFromStream h₁
  constructor
  · intro h
    have hy := H.derives_of_parseFromStream (H.derives_of_append hderives happend rfl h)
    rw [← a.mergeFrom_empty] at hy
    obtain ⟨b, hb, rfl⟩ := hy.exists_of_mergeFrom
    exact ⟨b, H.parseFromStream_of_derives hb, rfl⟩
  · rintro ⟨b, hb, rfl⟩
    have hy := (H.derives_of_parseFromStream hb).mergeFrom a
    rw [a.mergeFrom_empty] at hy
    exact H.parseFromStream_of_derives (happend ▸ hderives.append hy)

omit H in
/-- Behind a request, a second type and a response. -/
theorem parseFromStream_append_plain :
    PlainStream.codedInput.parseFromStream .empty ⟨[8, 1, 34, 1, 66], false⟩ =
        (true, { RpcMessage.empty with type? := some .request, method? := some [66] }) ∧
      PlainStream.codedInput.parseFromStream .empty ⟨[8, 1, 34, 1, 66, 8, 2, 50, 1, 7], false⟩ =
        (true, ⟨some .response, none, none, some [66], none, some [7], none⟩) := by
  have hfirst : PlainStream.codedInput.parseFromStream .empty ⟨[8, 1, 34, 1, 66], false⟩ =
    (true, { RpcMessage.empty with type? := some .request, method? := some [66] }) := by
    decide +kernel
  have hsecond : PlainStream.codedInput.parseFromStream .empty ⟨[8, 2, 50, 1, 7], false⟩ =
    (true, { RpcMessage.empty with type? := some .response, response? := some [7] }) := by
    decide +kernel
  have happend : PlainStream.codedInput.left ⟨[8, 1, 34, 1, 66, 8, 2, 50, 1, 7], false⟩ =
      PlainStream.codedInput.left ⟨[8, 1, 34, 1, 66], false⟩ ++
        PlainStream.codedInput.left ⟨[8, 2, 50, 1, 7], false⟩ := rfl
  exact ⟨hfirst, (PlainStream.lawful.parseFromStream_append happend hfirst _).mpr
    ⟨_, hsecond, rfl⟩⟩

end Lawful

end CodedInput

end MRpc
