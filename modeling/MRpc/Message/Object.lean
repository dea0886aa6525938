import MRpc.Lib.BitFlags
import MRpc.Message.RpcMessage

/-!
# Messages as objects

The class `RpcMessage` of `src/rpc.pb.h` and `src/rpc.pb.cc`. Which fields are set is kept in the
bits of `_has_bits_`; a string is a pointer, which is that of one empty string shared by all
messages until the field is first set, and that of a string of the object's own from then on. An
object keeps its string when the field is cleared, hands it over in `release_`, and takes one of the
caller in `set_allocated_`.

Strings and objects get a new address each time. Reaching for a string or an object that is not
there is a fault (`none`). Through the pointer that `mutable_` returns the caller changes the string
at once, and does not keep it. Unknown fields and `_cached_size_` are left out; the three overloads
of a setter differ in how the bytes are given.

## Main definitions

* `StringField`, `MessageObject`, `MessageHeap`: the fields, an object, and where objects live.
* `MessageHeap.setString`, `MessageHeap.clearString`, `MessageHeap.mutableString`,
  `MessageHeap.releaseString`, `MessageHeap.setAllocatedString` and the accessors of the other
  fields.
* `MessageHeap.clear`, `MessageHeap.mergeFrom`, `MessageHeap.copyFrom`, `MessageHeap.swap`,
  `MessageHeap.delete`: the operations on whole messages.
* `MessageAction`, `MessageHeap.next`: the operations as steps.
-/

namespace MRpc

open FixedWidth BitFlags Function

/-! ### Objects -/

/-- The fields that are strings. -/
inductive StringField
  | service
  | method
  | request
  | response
  deriving DecidableEq, Repr

/-- The position of the bit of the field in `_has_bits_`: the masks are `0x4` to `0x20`. -/
def StringField.bit : StringField → Nat
  | .service => 2
  | .method => 3
  | .request => 4
  | .response => 5

/-- The bits of `type`, `id` and `error`: the masks are `0x1`, `0x2` and `0x40`. -/
def typeBit : Nat := 0

@[inherit_doc typeBit]
def idBit : Nat := 1

@[inherit_doc typeBit]
def errorBit : Nat := 6

/-- The data members; a string that is `none` is the empty string that all messages share. -/
structure MessageObject where
  hasBits : BitVec 32
  id : UInt64
  str : StringField → Option Ptr
  type : Nat
  error : Nat

namespace MessageObject

/-- `SharedCtor`. -/
def new : MessageObject := ⟨0, 0, fun _ => none, 0, 0⟩

/-- `has_service()` and the like. -/
def has (o : MessageObject) (bit : Nat) : Bool := test o.hasBits bit

/-- `set_has_service()` and the like. -/
def setHas (o : MessageObject) (bit : Nat) : MessageObject :=
  { o with hasBits := set o.hasBits bit }

/-- `clear_has_service()` and the like. -/
def clearHas (o : MessageObject) (bit : Nat) : MessageObject :=
  { o with hasBits := reset o.hasBits bit }

/-- The object with another pointer for the field. -/
def setStr (o : MessageObject) (f : StringField) (p : Option Ptr) : MessageObject :=
  { o with str := update o.str f p }

end MessageObject

/-- The strings and the objects that are allocated, and the strings that belong to the caller. -/
structure MessageHeap where
  strings : Ptr → Option Bytes
  objects : Ptr → Option MessageObject
  held : Ptr → Bool
  /-- The next address. -/
  fresh : Nat

namespace MessageHeap

variable (s : MessageHeap)

/-- Nothing is allocated. -/
def empty : MessageHeap := ⟨fun _ => none, fun _ => none, fun _ => false, 0⟩

/-- A change of the members of the object `m`. -/
def edit (m : Ptr) (g : MessageObject → MessageObject) : Option MessageHeap := do
  let o ← s.objects m
  return { s with objects := update s.objects m (some (g o)) }

/-- A change of the string at `p`, through its pointer. -/
def assign (p : Ptr) (g : Bytes → Bytes) : Option MessageHeap := do
  let v ← s.strings p
  return { s with strings := update s.strings p (some (g v)) }

/-- `delete` of the string at `p`. -/
def deleteString (p : Ptr) : Option MessageHeap := do
  let _ ← s.strings p
  return { s with strings := update s.strings p none }

/-- `*service_` and the like. -/
def read (o : MessageObject) (f : StringField) : Option Bytes :=
  match o.str f with
  | none => some []
  | some p => s.strings p

/-! ### Accessors -/

/-- `set_type`. -/
def setType (m : Ptr) (value : MessageType) : Option MessageHeap :=
  s.edit m fun o => { o.setHas typeBit with type := value.toNat }

/-- `clear_type`. -/
def clearType (m : Ptr) : Option MessageHeap :=
  s.edit m fun o => { o with type := 0 }.clearHas typeBit

/-- `set_id`. -/
def setId (m : Ptr) (value : UInt64) : Option MessageHeap :=
  s.edit m fun o => { o.setHas idBit with id := value }

/-- `clear_id`. -/
def clearId (m : Ptr) : Option MessageHeap :=
  s.edit m fun o => { o with id := 0 }.clearHas idBit

/-- `set_error`. -/
def setError (m : Ptr) (value : RpcErrorCode) : Option MessageHeap :=
  s.edit m fun o => { o.setHas errorBit with error := value.toNat }

/-- `clear_error`. -/
def clearError (m : Ptr) : Option MessageHeap :=
  s.edit m fun o => { o with error := 0 }.clearHas errorBit

/-- `mutable_service` and the like: the object gets a string of its own if it has none. -/
def mutableString (m : Ptr) (f : StringField) : Option (MessageHeap × Ptr) := do
  let s ← s.edit m fun o => o.setHas f.bit
  let o ← s.objects m
  match o.str f with
  | some p => return (s, p)
  | none =>
    let p := s.fresh
    let s := { s with strings := update s.strings p (some []), fresh := p + 1 }
    let s ← s.edit m fun o => o.setStr f (some p)
    return (s, p)

/-- What a caller does with `mutable_service` and the like, who changes the string by `g`. -/
def changeString (m : Ptr) (f : StringField) (g : Bytes → Bytes) : Option MessageHeap := do
  let (s, p) ← s.mutableString m f
  s.assign p g

/-- `set_service` and the like: the steps of `mutable_service`, and an assignment. -/
def setString (m : Ptr) (f : StringField) (value : Bytes) : Option MessageHeap :=
  s.changeString m f fun _ => value

/-- `service_->clear()` and the like, for a string of the object's own. -/
def emptyString (m : Ptr) (f : StringField) : Option MessageHeap := do
  let o ← s.objects m
  match o.str f with
  | none => return s
  | some p => s.assign p fun _ => []

/-- `clear_service` and the like. -/
def clearString (m : Ptr) (f : StringField) : Option MessageHeap := do
  let s ← s.emptyString m f
  s.edit m fun o => o.clearHas f.bit

/-- `release_service` and the like; the string belongs to the caller from now on. -/
def releaseString (m : Ptr) (f : StringField) : Option (MessageHeap × Option Ptr) := do
  let s ← s.edit m fun o => o.clearHas f.bit
  let o ← s.objects m
  match o.str f with
  | none => return (s, none)
  | some temp =>
    let s ← s.edit m fun o => o.setStr f none
    return ({ s with held := update s.held temp true }, some temp)

/-- `set_allocated_service` and the like; the string no longer belongs to the caller. -/
def setAllocatedString (m : Ptr) (f : StringField) (value : Option Ptr) : Option MessageHeap := do
  let o ← s.objects m
  let s ← match o.str f with
    | none => some s
    | some p => s.deleteString p
  match value with
  | some q =>
    let s ← s.edit m fun o => (o.setHas f.bit).setStr f (some q)
    return { s with held := update s.held q false }
  | none => s.edit m fun o => (o.clearHas f.bit).setStr f none

/-! ### Whole messages -/

/-- The part of `Clear` for one string. -/
def clearStringIfHas (m : Ptr) (f : StringField) : Option MessageHeap := do
  let o ← s.objects m
  if o.has f.bit then s.emptyString m f else return s

/-- `Clear`; `type_` and `error_` lie side by side. -/
def clear (m : Ptr) : Option MessageHeap := do
  let o ← s.objects m
  let s ← if o.hasBits &&& 127#32 != 0#32 then do
      let s ← s.edit m fun o => { o with type := 0, error := 0 }
      let s ← s.edit m fun o => { o with id := 0 }
      let s ← s.clearStringIfHas m .service
      let s ← s.clearStringIfHas m .method
      let s ← s.clearStringIfHas m .request
      s.clearStringIfHas m .response
    else some s
  s.edit m fun o => { o with hasBits := 0 }

/-- The part of `MergeFrom` for one string. -/
def mergeString (m : Ptr) (source : MessageObject) (f : StringField) : Option MessageHeap := do
  if source.has f.bit then s.setString m f (← s.read source f) else return s

/-- The part of `MergeFrom` for `type`; the number of no type is undefined behaviour. -/
def mergeType (m : Ptr) (source : MessageObject) : Option MessageHeap := do
  if source.has typeBit then s.setType m (← MessageType.ofNat? source.type) else return s

/-- The part of `MergeFrom` for `id`. -/
def mergeId (m : Ptr) (source : MessageObject) : Option MessageHeap :=
  if source.has idBit then s.setId m source.id else some s

/-- The part of `MergeFrom` for `error`. -/
def mergeError (m : Ptr) (source : MessageObject) : Option MessageHeap := do
  if source.has errorBit then s.setError m (← RpcErrorCode.ofNat? source.error) else return s

/-- `MergeFrom`, which stops the program if it is given the message itself. -/
def mergeFrom (m source : Ptr) : Option MessageHeap := do
  if m = source then none
  else
    let o ← s.objects source
    if o.hasBits &&& 255#32 != 0#32 then
      let s ← s.mergeType m o
      let s ← s.mergeId m o
      let s ← s.mergeString m o .service
      let s ← s.mergeString m o .method
      let s ← s.mergeString m o .request
      let s ← s.mergeString m o .response
      s.mergeError m o
    else return s

/-- `CopyFrom`. -/
def copyFrom (m source : Ptr) : Option MessageHeap := do
  if source = m then return s
  else
    let s ← s.clear m
    s.mergeFrom m source

/-- `Swap`: every member is swapped. -/
def swap (m other : Ptr) : Option MessageHeap := do
  let o ← s.objects m
  let p ← s.objects other
  if other ≠ m then
    return { s with objects := update (update s.objects m (some p)) other (some o) }
  else return s

/-- The part of `SharedDtor` for one string. -/
def deleteOwnString (o : MessageObject) (f : StringField) : Option MessageHeap :=
  match o.str f with
  | none => some s
  | some p => s.deleteString p

/-- `~RpcMessage`, and its memory is freed. -/
def delete (m : Ptr) : Option MessageHeap := do
  let o ← s.objects m
  let s ← s.deleteOwnString o .service
  let s ← s.deleteOwnString o .method
  let s ← s.deleteOwnString o .request
  let s ← s.deleteOwnString o .response
  return { s with objects := update s.objects m none }

end MessageHeap

/-! ### Operations as steps -/

/-- What a caller can do with messages and strings. -/
inductive MessageAction
  | new
  | delete (m : Ptr)
  /-- The caller makes a string, or deletes one that belongs to it. -/
  | newString (value : Bytes)
  | deleteHeld (p : Ptr)
  | setType (m : Ptr) (value : MessageType)
  | clearType (m : Ptr)
  | setId (m : Ptr) (value : UInt64)
  | clearId (m : Ptr)
  | setError (m : Ptr) (value : RpcErrorCode)
  | clearError (m : Ptr)
  | changeString (m : Ptr) (f : StringField) (g : Bytes → Bytes)
  | setString (m : Ptr) (f : StringField) (value : Bytes)
  | clearString (m : Ptr) (f : StringField)
  | releaseString (m : Ptr) (f : StringField)
  | setAllocatedString (m : Ptr) (f : StringField) (value : Option Ptr)
  | clear (m : Ptr)
  | mergeFrom (m source : Ptr)
  | copyFrom (m source : Ptr)
  | swap (m other : Ptr)

namespace MessageHeap

/-- There is a message at this address. -/
def alive (s : MessageHeap) (m : Ptr) : Bool := (s.objects m).isSome

/-- What the caller has to see to: a message that it uses exists, a string that it deletes or hands
over belongs to it, and `MergeFrom` is not given the message itself. -/
def enabled (s : MessageHeap) : MessageAction → Bool
  | .new | .newString _ => true
  | .deleteHeld p => s.held p
  | .delete m | .setType m _ | .clearType m | .setId m _ | .clearId m | .setError m _
  | .clearError m | .changeString m _ _ | .setString m _ _ | .clearString m _
  | .releaseString m _ | .clear m => s.alive m
  | .setAllocatedString m _ value => s.alive m && value.all s.held
  | .mergeFrom m source => s.alive m && s.alive source && m != source
  | .copyFrom m other | .swap m other => s.alive m && s.alive other

/-- One operation; `none` is a fault. -/
def step (s : MessageHeap) : MessageAction → Option MessageHeap
  | .new => some
    { s with objects := update s.objects s.fresh (some MessageObject.new), fresh := s.fresh + 1 }
  | .delete m => s.delete m
  | .newString value => some
    { s with
      strings := update s.strings s.fresh (some value)
      held := update s.held s.fresh true
      fresh := s.fresh + 1 }
  | .deleteHeld p =>
    (s.deleteString p).map fun s => { s with held := update s.held p false }
  | .setType m value => s.setType m value
  | .clearType m => s.clearType m
  | .setId m value => s.setId m value
  | .clearId m => s.clearId m
  | .setError m value => s.setError m value
  | .clearError m => s.clearError m
  | .changeString m f g => s.changeString m f g
  | .setString m f value => s.setString m f value
  | .clearString m f => s.clearString m f
  | .releaseString m f => (s.releaseString m f).map Prod.fst
  | .setAllocatedString m f value => s.setAllocatedString m f value
  | .clear m => s.clear m
  | .mergeFrom m source => s.mergeFrom m source
  | .copyFrom m source => s.copyFrom m source
  | .swap m other => s.swap m other

/-- The next state, if the caller keeps to what it has to see to. -/
def next (s : MessageHeap) (a : MessageAction) : Option MessageHeap :=
  if s.enabled a then s.step a else none

end MessageHeap

end MRpc
