import MRpc.Lib.Reading
import MRpc.Lib.WhileLoop
import MRpc.Message.RpcMessage

/-!
# The generated parser

`RpcMessage::MergePartialFromCodedStream` of `src/rpc.pb.cc`. Behind each field the parser looks for
the tag of the field that is written next (`ExpectTag`), and if it is there jumps into the code of
that field instead of reading a tag and dispatching on it; behind the last field it looks for the
end of the input (`ExpectAtEnd`). Tags are read with a cutoff, and the dispatch is on the field
number first. A tag that is zero or ends a group ends the parser without an error; whether the input
ended there is for `ConsumedEntireMessage` to say.

The calls it makes are those of protobuf's `CodedInputStream`, `WireFormatLite` and `WireFormat`,
which are not part of the repository. They are a parameter (`CodedInput`), and what the parser
relies on is `CodedInput.Lawful`: every reader takes the words of some language from the front of
the input and depends on nothing but the input that is left, and the optimised calls are right when
they return true. A stream is one of less than 64 MiB, protobuf's default limit, behind which the
readers refuse what is there; which strings are varints, how deep groups may nest and how a string
announces its length is not said anywhere.

Unknown fields and values that are not declared are read and not kept, and the log lines of
`VerifyUTF8StringNamedField` are left out.

## Main definitions

* `CodedInput`, `Words`, `CodedInput.Lawful`: the library, its languages and what it promises.
* `CodedInput.mergePartialRound`, `CodedInput.mergePartialFromCodedStream`: the parser, from label
  to label and as a whole.
* `CodedInput.parseFromStream`: the parser followed by `ConsumedEntireMessage`.

## Main results

* `CodedInput.Lawful.decreasing_mergePartialRound`: the parser ends.
-/

namespace MRpc

open FixedWidth Reading WhileLoop

/-! ### The library -/

/-- What the generated parser calls of protobuf; a call returns the new state of the stream. -/
structure CodedInput (σ : Type) where
  /-- The bytes that have not been read. -/
  left : σ → Bytes
  /-- `ReadTagWithCutoff`: the tag, zero if there is none, and whether it is known to be at most the
  cutoff. -/
  readTagWithCutoff : Nat → σ → (Nat × Bool) × σ
  /-- `ExpectTag`. -/
  expectTag : Nat → σ → Bool × σ
  /-- `ExpectAtEnd`. -/
  expectAtEnd : σ → Bool × σ
  /-- `ReadPrimitive<int, TYPE_ENUM>`. -/
  readEnum : σ → Option Int × σ
  /-- `ReadPrimitive<uint64, TYPE_FIXED64>`. -/
  readFixed64 : σ → Option UInt64 × σ
  /-- `ReadString` into a string with the given content, and its content afterwards. -/
  readString : Bytes → σ → (Bool × Bytes) × σ
  /-- `ReadBytes`, likewise. -/
  readBytes : Bytes → σ → (Bool × Bytes) × σ
  /-- `SkipField` on a field with the given tag. -/
  skipField : Nat → σ → Bool × σ
  /-- `ConsumedEntireMessage`. -/
  consumedEntireMessage : σ → Bool

/-- The languages of a wire format: the strings that stand for a tag, for the content of a field of
each type, and for the content of a field that is skipped, by its tag. -/
structure Words where
  tag : Nat → Bytes → Prop
  enum : Int → Bytes → Prop
  fixed64 : UInt64 → Bytes → Prop
  string : Bytes → Bytes → Prop
  bytes : Bytes → Bytes → Prop
  skipped : Nat → Bytes → Prop

namespace CodedInput

variable {σ : Type}

/-- A call that succeeds or fails, as a reader. -/
def succeeds (r : Bool × σ) : Option Unit × σ := (if r.1 then some () else none, r.2)

/-- A call that reads into a string, as a reader. -/
def reads (r : (Bool × Bytes) × σ) : Option Bytes × σ := (if r.1.1 then some r.1.2 else none, r.2)

theorem succeeds_eq_some_iff {r : Bool × σ} {s : σ} :
    succeeds r = (some (), s) ↔ r = (true, s) := by
  obtain ⟨ok, t⟩ := r
  cases ok <;> simp [succeeds]

theorem reads_eq_some_iff {r : (Bool × Bytes) × σ} {b : Bytes} {s : σ} :
    reads r = (some b, s) ↔ r = ((true, b), s) := by
  obtain ⟨⟨ok, b'⟩, t⟩ := r
  cases ok <;> simp [reads]

variable (lib : CodedInput σ)

/-- `ReadTag`, the first half of `ReadTagWithCutoff(127)`; `none` is zero. -/
def readTag (s : σ) : Option Nat × σ :=
  let r := lib.readTagWithCutoff 127 s
  (if r.1.1 = 0 then none else some r.1.1, r.2)

/-- What protobuf documents of these calls, for a stream below the limit. -/
structure Lawful (W : Words) : Prop where
  /-- A tag is not zero and has at least one byte. -/
  tag_ne : ∀ {t w}, W.tag t w → t ≠ 0 ∧ w ≠ []
  takes_tag : Takes lib.left lib.readTag W.tag
  /-- If the tag is not known to be at most the cutoff, it is above it or zero. -/
  cutoff : ∀ s, (lib.readTagWithCutoff 127 s).1.2 = false →
    127 < (lib.readTagWithCutoff 127 s).1.1 ∨ (lib.readTagWithCutoff 127 s).1.1 = 0
  /-- `ExpectTag` returns true only where `ReadTag` would return the tag, and then advances. -/
  expectTag_true : ∀ {t s s'}, lib.expectTag t s = (true, s') →
    ∃ w, W.tag t w ∧ lib.left s = w ++ lib.left s'
  expectTag_false : ∀ {t s s'}, lib.expectTag t s = (false, s') → lib.left s' = lib.left s
  /-- `ExpectAtEnd` returns true only at the end, and then the whole message was consumed. -/
  expectAtEnd_true : ∀ {s s'}, lib.expectAtEnd s = (true, s') →
    lib.left s = [] ∧ lib.consumedEntireMessage s' = true
  expectAtEnd_false : ∀ {s s'}, lib.expectAtEnd s = (false, s') → lib.left s' = lib.left s
  /-- Where no tag was read, the message was consumed if the input was. -/
  consumed_none : ∀ {s s'}, lib.readTag s = (none, s') →
    (lib.consumedEntireMessage s' = true ↔ lib.left s = [])
  /-- A message does not end on the tag that ends a group. -/
  consumed_some : ∀ {s s' t}, lib.readTag s = (some t, s') → lib.consumedEntireMessage s' = false
  takes_enum : Takes lib.left lib.readEnum W.enum
  takes_fixed64 : Takes lib.left lib.readFixed64 W.fixed64
  takes_string : ∀ prev, Takes lib.left (fun s => reads (lib.readString prev s)) W.string
  takes_bytes : ∀ prev, Takes lib.left (fun s => reads (lib.readBytes prev s)) W.bytes
  takes_skipped : ∀ t, Takes lib.left (fun s => succeeds (lib.skipField t s)) fun _ => W.skipped t
  /-- What a failed read leaves in the string depends on what is left of the input. -/
  string_congr : ∀ {s t}, lib.left s = lib.left t → ∀ prev,
    (lib.readString prev s).1 = (lib.readString prev t).1
  bytes_congr : ∀ {s t}, lib.left s = lib.left t → ∀ prev,
    (lib.readBytes prev s).1 = (lib.readBytes prev t).1

end CodedInput

/-! ### Fields -/

namespace RpcMessage

/-- `set_type` with a value for which `MessageType_IsValid` holds; any other one is an unknown
field. -/
def withType (value : Int) (m : RpcMessage) : RpcMessage :=
  match value with
  | .ofNat n => match MessageType.ofNat? n with
    | some t => { m with type? := some t }
    | none => m
  | .negSucc _ => m

/-- `set_error` with a value for which `ErrorCode_IsValid` holds. -/
def withError (value : Int) (m : RpcMessage) : RpcMessage :=
  match value with
  | .ofNat n => match RpcErrorCode.ofNat? n with
    | some e => { m with error? := some e }
    | none => m
  | .negSucc _ => m

/-- `id`, read into `id_`, and `set_has_id()`. -/
def withId (value : UInt64) (m : RpcMessage) : RpcMessage := { m with id? := some value }

/-- `service` with the given content. -/
def withService (b : Bytes) (m : RpcMessage) : RpcMessage := { m with service? := some b }

/-- `method` with the given content. -/
def withMethod (b : Bytes) (m : RpcMessage) : RpcMessage := { m with method? := some b }

/-- `request` with the given content. -/
def withRequest (b : Bytes) (m : RpcMessage) : RpcMessage := { m with request? := some b }

/-- `response` with the given content. -/
def withResponse (b : Bytes) (m : RpcMessage) : RpcMessage := { m with response? := some b }

/-- The labels of the generated code. -/
inductive Label
  | parseId
  | parseService
  | parseMethod
  | parseRequest
  | parseResponse
  | parseError
  deriving DecidableEq, Repr

/-- The tag that is consumed on the way to a label. -/
def Label.tag : Label → Nat
  | .parseId => 17
  | .parseService => 26
  | .parseMethod => 34
  | .parseRequest => 42
  | .parseResponse => 50
  | .parseError => 56

end RpcMessage

/-- The outcome of reading the content of a field: whether it was read, the message and the
stream. -/
structure FieldRead (σ : Type) where
  ok : Bool
  msg : RpcMessage
  stream : σ

/-- Where the parser stands, at a label or at the head of the loop (`none`), and at the end what it
returns. -/
structure ParseState (σ : Type) where
  label : Option RpcMessage.Label
  msg : RpcMessage
  stream : σ
  ok : Bool

namespace CodedInput

open RpcMessage

variable {σ : Type} (lib : CodedInput σ)

/-- An enumeration field. -/
def readEnumField (set : Int → RpcMessage → RpcMessage) (m : RpcMessage) (s : σ) : FieldRead σ :=
  match lib.readEnum s with
  | (none, s) => ⟨false, m, s⟩
  | (some value, s) => ⟨true, set value m, s⟩

/-- A `string` or `bytes` field with content `prev`. The string is there, and the field is set, also
if it cannot be read. -/
def readTextField (read : Bytes → σ → (Bool × Bytes) × σ) (prev : Option Bytes)
    (set : Bytes → RpcMessage → RpcMessage) (m : RpcMessage) (s : σ) : FieldRead σ :=
  let r := read (prev.getD []) s
  ⟨r.1.1, set r.1.2 m, r.2⟩

/-- `type`, behind its tag. -/
def readType (m : RpcMessage) (s : σ) : FieldRead σ := lib.readEnumField withType m s

/-- `id`, behind its tag. -/
def readId (m : RpcMessage) (s : σ) : FieldRead σ :=
  match lib.readFixed64 s with
  | (none, s) => ⟨false, m, s⟩
  | (some value, s) => ⟨true, withId value m, s⟩

/-- `service`, behind its tag. -/
def readService (m : RpcMessage) (s : σ) : FieldRead σ :=
  readTextField lib.readString m.service? withService m s

/-- `method`, behind its tag. -/
def readMethod (m : RpcMessage) (s : σ) : FieldRead σ :=
  readTextField lib.readString m.method? withMethod m s

/-- `request`, behind its tag. -/
def readRequest (m : RpcMessage) (s : σ) : FieldRead σ :=
  readTextField lib.readBytes m.request? withRequest m s

/-- `response`, behind its tag. -/
def readResponse (m : RpcMessage) (s : σ) : FieldRead σ :=
  readTextField lib.readBytes m.response? withResponse m s

/-- `error`, behind its tag. -/
def readError (m : RpcMessage) (s : σ) : FieldRead σ := lib.readEnumField withError m s

/-- The fields of the message, by their tags. -/
def fieldReader : Nat → Option (RpcMessage → σ → FieldRead σ)
  | 8 => some lib.readType
  | 17 => some lib.readId
  | 26 => some lib.readService
  | 34 => some lib.readMethod
  | 42 => some lib.readRequest
  | 50 => some lib.readResponse
  | 56 => some lib.readError
  | _ => none

/-! ### The parser -/

/-- `goto success`. -/
def success (m : RpcMessage) (s : σ) : Round (ParseState σ) := .done ⟨none, m, s, true⟩

/-- `goto failure`. -/
def failure (m : RpcMessage) (s : σ) : Round (ParseState σ) := .done ⟨none, m, s, false⟩

/-- `DO_(..)` and `if (input->ExpectTag(..)) goto ..; break;`. -/
def thenExpect (next : Label) (r : FieldRead σ) : Round (ParseState σ) :=
  if r.ok then
    match lib.expectTag next.tag r.stream with
    | (true, s) => .again ⟨some next, r.msg, s, false⟩
    | (false, s) => .again ⟨none, r.msg, s, false⟩
  else failure r.msg r.stream

/-- `DO_(..)` and `if (input->ExpectAtEnd()) goto success; break;`. -/
def thenExpectAtEnd (r : FieldRead σ) : Round (ParseState σ) :=
  if r.ok then
    match lib.expectAtEnd r.stream with
    | (true, s) => success r.msg s
    | (false, s) => .again ⟨none, r.msg, s, false⟩
  else failure r.msg r.stream

/-- `handle_unusual`. -/
def handleUnusual (tag : Nat) (m : RpcMessage) (s : σ) : Round (ParseState σ) :=
  if tag = 0 ∨ tag % 8 = 4 then success m s
  else
    match lib.skipField tag s with
    | (true, s) => .again ⟨none, m, s, false⟩
    | (false, s) => failure m s

/-- The code behind a label. -/
def parseAt (label : Label) (m : RpcMessage) (s : σ) : Round (ParseState σ) :=
  match label with
  | .parseId => lib.thenExpect .parseService (lib.readId m s)
  | .parseService => lib.thenExpect .parseMethod (lib.readService m s)
  | .parseMethod => lib.thenExpect .parseRequest (lib.readMethod m s)
  | .parseRequest => lib.thenExpect .parseResponse (lib.readRequest m s)
  | .parseResponse => lib.thenExpect .parseError (lib.readResponse m s)
  | .parseError => lib.thenExpectAtEnd (lib.readError m s)

/-- The `switch` on the field number. -/
def switchField (tag : Nat) (m : RpcMessage) (s : σ) : Round (ParseState σ) :=
  match tag / 8 with
  | 1 => if tag = 8 then lib.thenExpect .parseId (lib.readType m s) else lib.handleUnusual tag m s
  | 2 => if tag = 17 then lib.parseAt .parseId m s else lib.handleUnusual tag m s
  | 3 => if tag = 26 then lib.parseAt .parseService m s else lib.handleUnusual tag m s
  | 4 => if tag = 34 then lib.parseAt .parseMethod m s else lib.handleUnusual tag m s
  | 5 => if tag = 42 then lib.parseAt .parseRequest m s else lib.handleUnusual tag m s
  | 6 => if tag = 50 then lib.parseAt .parseResponse m s else lib.handleUnusual tag m s
  | 7 => if tag = 56 then lib.parseAt .parseError m s else lib.handleUnusual tag m s
  | _ => lib.handleUnusual tag m s

/-- From the head of the loop, or from a label, to the next one. -/
def mergePartialRound (s : ParseState σ) : Round (ParseState σ) :=
  match s.label with
  | none =>
    match lib.readTagWithCutoff 127 s.stream with
    | ((tag, true), t) => lib.switchField tag s.msg t
    | ((tag, false), t) => lib.handleUnusual tag s.msg t
  | some label => lib.parseAt label s.msg s.stream

/-- What bounds the number of rounds: a round takes a tag or comes from a label. -/
def size (s : ParseState σ) : Nat :=
  2 * (lib.left s.stream).length + s.label.elim 0 fun _ => 1

/-- `MergePartialFromCodedStream`. -/
def mergePartialFromCodedStream (m : RpcMessage) (s : σ) : Option (ParseState σ) :=
  WhileLoop.eval lib.mergePartialRound lib.size ⟨none, m, s, false⟩

/-- `MergePartialFromCodedStream`, and then `ConsumedEntireMessage`: whether the stream holds a
message, and the content of the message afterwards. -/
def parseFromStream (m : RpcMessage) (s : σ) : Bool × RpcMessage :=
  match lib.mergePartialFromCodedStream m s with
  | some p => (p.ok && lib.consumedEntireMessage p.stream, p.msg)
  | none => (false, m)

/-! ### What stands behind a tag -/

variable {lib}

/-- A round from a label: the code behind it is the case of its tag. -/
theorem mergePartialRound_label (label : Label) (m : RpcMessage) (s : σ) (ok : Bool) :
    lib.mergePartialRound ⟨some label, m, s, ok⟩ = lib.switchField label.tag m s := by
  cases label <;> rfl

/-- The dispatch on the field number finds the fields by their tags. -/
theorem switchField_of_some {tag : Nat} {read : RpcMessage → σ → FieldRead σ}
    (h : lib.fieldReader tag = some read) (m : RpcMessage) (s : σ) :
    (∃ next, lib.switchField tag m s = lib.thenExpect next (read m s)) ∨
      lib.switchField tag m s = lib.thenExpectAtEnd (read m s) := by
  rw [fieldReader.eq_def] at h
  split at h
  case h_8 => cases h
  all_goals obtain rfl := Option.some.inj h
  case h_7 => exact Or.inr rfl
  all_goals exact Or.inl ⟨_, rfl⟩

theorem switchField_of_none {tag : Nat} (h : lib.fieldReader tag = none) (m : RpcMessage) (s : σ) :
    lib.switchField tag m s = lib.handleUnusual tag m s := by
  have hne (t : Nat) (ht : (lib.fieldReader t).isSome) : tag ≠ t := by
    rintro rfl
    rw [h] at ht
    cases ht
  rw [switchField, if_neg (hne 8 rfl), if_neg (hne 17 rfl), if_neg (hne 26 rfl),
    if_neg (hne 34 rfl), if_neg (hne 42 rfl), if_neg (hne 50 rfl), if_neg (hne 56 rfl)]
  split <;> rfl

/-- The tags of the fields are below the cutoff. -/
theorem fieldReader_of_lt {tag : Nat} (h : 127 < tag) : lib.fieldReader tag = none := by
  rw [fieldReader.eq_def]
  split <;> first | rfl | omega

/-- A round that finds no tag. -/
theorem mergePartialRound_none {m : RpcMessage} {s t : σ} {ok : Bool}
    (h : lib.readTag s = (none, t)) : lib.mergePartialRound ⟨none, m, s, ok⟩ = success m t := by
  rcases hread : lib.readTagWithCutoff 127 s with ⟨⟨tag, known⟩, t'⟩
  have htag : tag = 0 := by
    by_contra hne
    simp [readTag, hread, hne] at h
  obtain rfl : t' = t := by simpa [readTag, hread, htag] using h
  cases known <;> simp only [mergePartialRound, hread, htag, switchField, handleUnusual,
    Nat.zero_div, true_or, ↓reduceIte]

/-- A round that finds a tag: the cutoff makes no difference. -/
theorem Lawful.mergePartialRound_some {W : Words} (H : lib.Lawful W) {tag : Nat} {m : RpcMessage}
    {s t : σ} {ok : Bool} (h : lib.readTag s = (some tag, t)) :
    lib.mergePartialRound ⟨none, m, s, ok⟩ = lib.switchField tag m t := by
  rcases hread : lib.readTagWithCutoff 127 s with ⟨⟨tag', known⟩, t'⟩
  have hne : tag' ≠ 0 := by
    intro hzero
    simp [readTag, hread, hzero] at h
  obtain ⟨rfl, rfl⟩ : tag' = tag ∧ t' = t := by simpa [readTag, hread, hne] using h
  cases known with
  | true => simp only [mergePartialRound, hread]
  | false =>
    have hcutoff := H.cutoff s (by rw [hread])
    rw [hread] at hcutoff
    rw [switchField_of_none (fieldReader_of_lt (hcutoff.resolve_right hne))]
    simp only [mergePartialRound, hread]

end CodedInput

/-! ### What the readers of the fields read -/

/-- The content of a field of the message, by its tag, and what it does to the message. -/
def Words.Content (W : Words) (tag : Nat) (f : RpcMessage → RpcMessage) (v : Bytes) : Prop :=
  match tag with
  | 8 => ∃ value, W.enum value v ∧ f = .withType value
  | 17 => ∃ value, W.fixed64 value v ∧ f = .withId value
  | 26 => ∃ b, W.string b v ∧ f = .withService b
  | 34 => ∃ b, W.string b v ∧ f = .withMethod b
  | 42 => ∃ b, W.bytes b v ∧ f = .withRequest b
  | 50 => ∃ b, W.bytes b v ∧ f = .withResponse b
  | 56 => ∃ value, W.enum value v ∧ f = .withError value
  | _ => False

namespace CodedInput

open RpcMessage

variable {σ : Type} {lib : CodedInput σ} {W : Words}

/-- The reader of a field takes its content and does to the message what the content does; what it
leaves in the message when it fails depends on what is left of the input. -/
structure TakesField (lib : CodedInput σ) (read : RpcMessage → σ → FieldRead σ)
    (Content : (RpcMessage → RpcMessage) → Bytes → Prop) : Prop where
  exists_content : ∀ {m s}, (read m s).ok = true →
    ∃ f v, Content f v ∧ lib.left s = v ++ lib.left (read m s).stream ∧ (read m s).msg = f m
  read_content : ∀ {m s f v rest}, Content f v → lib.left s = v ++ rest →
    ∃ s', read m s = ⟨true, f m, s'⟩ ∧ lib.left s' = rest
  failed : ∀ {m s t}, lib.left s = lib.left t → (read m s).ok = false → (read m t).ok = false →
    (read m s).msg = (read m t).msg

namespace TakesField

variable {read : RpcMessage → σ → FieldRead σ}
  {Content : (RpcMessage → RpcMessage) → Bytes → Prop}

/-- A reader does the same on two states with the same input left. -/
theorem transfer (H : TakesField lib read Content) {m : RpcMessage} {s t : σ}
    (h : lib.left s = lib.left t) :
    (read m s).ok = (read m t).ok ∧ (read m s).msg = (read m t).msg ∧
      ((read m s).ok = true → lib.left (read m s).stream = lib.left (read m t).stream) := by
  have hsome {s t : σ} (h : lib.left s = lib.left t) (hok : (read m s).ok = true) :
      (read m t).ok = true ∧ (read m t).msg = (read m s).msg ∧
        lib.left (read m t).stream = lib.left (read m s).stream := by
    obtain ⟨f, v, hv, hleft, hmsg⟩ := H.exists_content hok
    obtain ⟨t', ht', hrest⟩ := H.read_content (m := m) hv (h.symm.trans hleft)
    rw [ht']
    exact ⟨rfl, hmsg.symm, hrest⟩
  cases hs : (read m s).ok with
  | true =>
    obtain ⟨hok, hmsg, hleft⟩ := hsome h hs
    exact ⟨hok.symm, hmsg.symm, fun _ => hleft.symm⟩
  | false =>
    cases ht : (read m t).ok with
    | true => exact absurd ((hsome h.symm ht).1.symm.trans hs) (by simp)
    | false => exact ⟨rfl, H.failed h hs ht, fun hok => absurd hok (by simp)⟩

end TakesField

/-- A field that is read as a value, and left alone where the value cannot be read. -/
theorem takesField_value {α : Type} {read : σ → Option α × σ} {Word : α → Bytes → Prop}
    (hread : Takes lib.left read Word) {field : RpcMessage → σ → FieldRead σ}
    {set : α → RpcMessage → RpcMessage}
    (hnone : ∀ {m s s'}, read s = (none, s') → field m s = ⟨false, m, s'⟩)
    (hsome : ∀ {m s b s'}, read s = (some b, s') → field m s = ⟨true, set b m, s'⟩) :
    TakesField lib field fun f v => ∃ b, Word b v ∧ f = set b where
  exists_content {m s} hok := by
    rcases hs : read s with ⟨_ | b, s'⟩
    · rw [hnone hs] at hok
      cases hok
    · obtain ⟨v, hv, hleft⟩ := hread.exists_word hs
      rw [hsome hs]
      exact ⟨set b, v, ⟨b, hv, rfl⟩, hleft, rfl⟩
  read_content {m s f v rest} hv hs := by
    obtain ⟨b, hb, rfl⟩ := hv
    obtain ⟨s', hs', hleft⟩ := hread.read_word hb hs
    exact ⟨s', hsome hs', hleft⟩
  failed {m s t} _ hs ht := by
    have hmsg {s : σ} (hok : (field m s).ok = false) : (field m s).msg = m := by
      rcases hs : read s with ⟨_ | b, s'⟩
      · rw [hnone hs]
      · rw [hsome hs] at hok
        cases hok
    rw [hmsg hs, hmsg ht]

/-- A field that is read into a string. -/
theorem takesField_text {read : Bytes → σ → (Bool × Bytes) × σ} {Word : Bytes → Bytes → Prop}
    (hread : ∀ prev, Takes lib.left (fun s => reads (read prev s)) Word)
    (hcongr : ∀ {s t}, lib.left s = lib.left t → ∀ prev, (read prev s).1 = (read prev t).1)
    (prev : RpcMessage → Option Bytes) (set : Bytes → RpcMessage → RpcMessage) :
    TakesField lib (fun m s => readTextField read (prev m) set m s)
      fun f v => ∃ b, Word b v ∧ f = set b where
  exists_content {m s} hok := by
    simp only [readTextField] at hok ⊢
    rcases hr : read ((prev m).getD []) s with ⟨⟨ok, b⟩, s'⟩
    rw [hr] at hok
    obtain rfl : ok = true := hok
    obtain ⟨v, hv, hleft⟩ := (hread _).exists_word (reads_eq_some_iff.mpr hr)
    exact ⟨set b, v, ⟨b, hv, rfl⟩, hleft, rfl⟩
  read_content {m s f v rest} hv hs := by
    obtain ⟨b, hb, rfl⟩ := hv
    obtain ⟨s', hs', hleft⟩ := (hread ((prev m).getD [])).read_word hb hs
    rw [reads_eq_some_iff] at hs'
    exact ⟨s', by simp only [readTextField, hs'], hleft⟩
  failed {m s t} h _ _ := by
    simp only [readTextField, hcongr h]

namespace Lawful

variable (H : lib.Lawful W)
include H

/-- **Every field** is read as the library reads its type. -/
theorem takesField {tag : Nat} {read : RpcMessage → σ → FieldRead σ}
    (h : lib.fieldReader tag = some read) : TakesField lib read (W.Content tag) := by
  have henum (set : Int → RpcMessage → RpcMessage) :
      TakesField lib (lib.readEnumField set) fun f v => ∃ value, W.enum value v ∧ f = set value :=
    takesField_value H.takes_enum (fun hs => by simp only [readEnumField, hs])
      fun hs => by simp only [readEnumField, hs]
  have hid : TakesField lib lib.readId fun f v => ∃ value, W.fixed64 value v ∧ f = .withId value :=
    takesField_value H.takes_fixed64 (fun hs => by simp only [readId, hs])
      fun hs => by simp only [readId, hs]
  have hstring := takesField_text H.takes_string H.string_congr
  have hbytes := takesField_text H.takes_bytes H.bytes_congr
  rw [fieldReader.eq_def] at h
  split at h
  case h_8 => cases h
  all_goals obtain rfl := Option.some.inj h
  · exact henum _
  · exact hid
  · exact hstring _ _
  · exact hstring _ _
  · exact hbytes _ _
  · exact hbytes _ _
  · exact henum _

/-! ### The parser ends -/

/-- What a jump does: the tag of the next field is taken, or nothing. -/
theorem thenExpect_again {next : Label} {r : FieldRead σ} {s : ParseState σ}
    (h : lib.thenExpect next r = .again s) : r.ok = true ∧ s.msg = r.msg ∧
      ((s.label = some next ∧ ∃ w, W.tag next.tag w ∧ lib.left r.stream = w ++ lib.left s.stream) ∨
        s.label = none ∧ lib.left s.stream = lib.left r.stream) := by
  rw [thenExpect] at h
  split_ifs at h with hok
  · split at h
    case h_1 t ht =>
      obtain rfl := Round.again.inj h
      exact ⟨hok, rfl, Or.inl ⟨rfl, H.expectTag_true ht⟩⟩
    case h_2 t ht =>
      obtain rfl := Round.again.inj h
      exact ⟨hok, rfl, Or.inr ⟨rfl, H.expectTag_false ht⟩⟩
  · cases h

theorem thenExpectAtEnd_again {r : FieldRead σ} {s : ParseState σ}
    (h : lib.thenExpectAtEnd r = .again s) :
    r.ok = true ∧ s.msg = r.msg ∧ s.label = none ∧ lib.left s.stream = lib.left r.stream := by
  rw [thenExpectAtEnd] at h
  split_ifs at h with hok
  · split at h
    case h_1 => cases h
    case h_2 t ht =>
      obtain rfl := Round.again.inj h
      exact ⟨hok, rfl, rfl, H.expectAtEnd_false ht⟩
  · cases h

theorem handleUnusual_again {tag : Nat} {m : RpcMessage} {s : σ} {s' : ParseState σ}
    (h : lib.handleUnusual tag m s = .again s') : tag % 8 ≠ 4 ∧ s'.msg = m ∧ s'.label = none ∧
      ∃ v, W.skipped tag v ∧ lib.left s = v ++ lib.left s'.stream := by
  rw [handleUnusual] at h
  split_ifs at h with hend
  · cases h
  · split at h
    case h_1 t ht =>
      obtain rfl := Round.again.inj h
      exact ⟨fun h4 => hend (Or.inr h4), rfl, rfl,
        (H.takes_skipped tag).exists_word (succeeds_eq_some_iff.mpr ht)⟩
    case h_2 => cases h

/-- What is read behind a tag is not read again. -/
theorem size_le_of_switchField {tag : Nat} {m : RpcMessage} {s : σ} {s' : ParseState σ}
    (h : lib.switchField tag m s = .again s') : lib.size s' ≤ 2 * (lib.left s).length := by
  cases hfield : lib.fieldReader tag with
  | none =>
    rw [switchField_of_none hfield] at h
    obtain ⟨-, -, hlabel, v, -, hleft⟩ := H.handleUnusual_again h
    rw [size, hlabel, hleft, List.length_append]
    simp only [Option.elim_none]
    omega
  | some read =>
    have hcontent (hok : (read m s).ok = true) :
        (lib.left (read m s).stream).length ≤ (lib.left s).length := by
      obtain ⟨f, v, -, hleft, -⟩ := (H.takesField hfield).exists_content hok
      rw [hleft, List.length_append]
      exact Nat.le_add_left _ _
    rcases switchField_of_some hfield m s with ⟨next, hnext⟩ | hnext
    · rw [hnext] at h
      obtain ⟨hok, -, ⟨hlabel, w, hw, hleft⟩ | ⟨hlabel, hleft⟩⟩ := H.thenExpect_again h
      · have hle := hcontent hok
        have hpos := List.length_pos_iff.mpr (H.tag_ne hw).2
        rw [hleft, List.length_append] at hle
        rw [size, hlabel, Option.elim_some]
        omega
      · rw [size, hlabel, hleft, Option.elim_none]
        exact Nat.mul_le_mul_left 2 (hcontent hok)
    · rw [hnext] at h
      obtain ⟨hok, -, hlabel, hleft⟩ := H.thenExpectAtEnd_again h
      rw [size, hlabel, hleft, Option.elim_none]
      exact Nat.mul_le_mul_left 2 (hcontent hok)

/-- **The parser ends**: every round has taken a tag, or comes from a label. -/
theorem decreasing_mergePartialRound : Decreasing lib.mergePartialRound lib.size := by
  rintro ⟨label, m, s, ok⟩ s' h
  cases label with
  | none =>
    rcases hread : lib.readTag s with ⟨_ | tag, t⟩
    · rw [mergePartialRound_none hread] at h
      cases h
    · rw [H.mergePartialRound_some hread] at h
      obtain ⟨w, hw, hleft⟩ := H.takes_tag.exists_word hread
      have hpos := List.length_pos_iff.mpr (H.tag_ne hw).2
      have hle := H.size_le_of_switchField h
      simp only [size, Option.elim_none, hleft, List.length_append] at hle ⊢
      omega
  | some label =>
    rw [mergePartialRound_label] at h
    have hle := H.size_le_of_switchField h
    simp only [size, Option.elim_some] at hle ⊢
    omega

end Lawful

end CodedInput

end MRpc
