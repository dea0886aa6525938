import MRpc.Message.PlainReader

/-!
# The jumps of the generated parser

A serialized message is parsed without a single dispatch after the first one: behind each field the
parser jumps to the field that is written next. The jumps are an optimisation. On every input,
whether it is a serialized message or not, the parser returns what the plain loop returns that reads
a tag in every round and looks the field up by it, and leaves the same message behind, also where it
fails; and if it succeeds, the input was consumed for both or for neither.

The two loops are at different places of the input: a jump has consumed the tag of its field, which
the plain loop reads at the beginning of its next round, and at the end of the input the parser
stops a round earlier.

## Main definitions

* `CodedInput.plainRound`, `CodedInput.mergePlain`: the plain loop.
* `CodedInput.Unread`: what a state of the parser has not read, with the tag of a jump.
* `CodedInput.outcome`: what a loop returns and leaves behind.

## Main results

* `CodedInput.Lawful.matches_mergePartialRound`: a round of the parser is a round of the plain loop.
* `CodedInput.Lawful.mergePartialFromCodedStream_eq`: both return the same.
-/

namespace MRpc

open FixedWidth Reading WhileLoop RpcMessage

namespace CodedInput

variable {σ : Type} (lib : CodedInput σ) (W : Words)

/-! ### The plain loop -/

/-- What stands behind a tag, without a jump. -/
def plainField (tag : Nat) (m : RpcMessage) (s : σ) : Round (ParseState σ) :=
  match lib.fieldReader tag with
  | some read =>
    let r := read m s
    if r.ok then .again ⟨none, r.msg, r.stream, false⟩ else failure r.msg r.stream
  | none => lib.handleUnusual tag m s

/-- One round of the plain loop. -/
def plainRound (s : ParseState σ) : Round (ParseState σ) :=
  match lib.readTag s.stream with
  | (none, t) => success s.msg t
  | (some tag, t) => lib.plainField tag s.msg t

/-- The plain loop. -/
def mergePlain (m : RpcMessage) (s : σ) : Option (ParseState σ) :=
  WhileLoop.eval lib.plainRound lib.size ⟨none, m, s, false⟩

/-! ### A round is a round of the plain loop -/

/-- What a state of the parser has still to read, with the tag that a jump has consumed. -/
def Unread (s : ParseState σ) (b : Bytes) : Prop :=
  match s.label with
  | none => lib.left s.stream = b
  | some label => ∃ w, W.tag label.tag w ∧ w ++ lib.left s.stream = b

/-- The outcome of a round of the parser is that of a round of the plain loop: both go round again,
with the same message and the same to read, or both end with the same result. At the end of the
input the parser stops one round earlier. -/
inductive Matches : Round (ParseState σ) → Round (ParseState σ) → Prop
  | again {s t : ParseState σ} (hmsg : s.msg = t.msg) (hlabel : t.label = none)
      (hleft : lib.Unread W s (lib.left t.stream)) : Matches (.again s) (.again t)
  | done {s t : ParseState σ} (hok : s.ok = t.ok) (hmsg : s.msg = t.msg)
      (hconsumed : s.ok = true →
        lib.consumedEntireMessage s.stream = lib.consumedEntireMessage t.stream) :
      Matches (.done s) (.done t)
  | atEnd {s t : ParseState σ} (hok : s.ok = true) (hmsg : s.msg = t.msg)
      (hconsumed : lib.consumedEntireMessage s.stream = true) (hleft : lib.left t.stream = []) :
      Matches (.done s) (.again t)

variable {lib W}

namespace Lawful

variable (H : lib.Lawful W)
include H

/-- A jump is taken only if the next round would read its tag. -/
theorem matches_thenExpect (next : Label) {r r' : FieldRead σ} (hok : r.ok = r'.ok)
    (hmsg : r.msg = r'.msg) (hleft : r.ok = true → lib.left r.stream = lib.left r'.stream) :
    Matches lib W (lib.thenExpect next r)
      (if r'.ok then .again ⟨none, r'.msg, r'.stream, false⟩ else failure r'.msg r'.stream) := by
  rw [thenExpect, ← hok]
  split_ifs with hread
  · rcases hexpect : lib.expectTag next.tag r.stream with ⟨_ | _, s⟩
    · exact .again hmsg rfl ((H.expectTag_false hexpect).trans (hleft hread))
    · obtain ⟨w, hw, htag⟩ := H.expectTag_true hexpect
      exact .again hmsg rfl ⟨w, hw, htag.symm.trans (hleft hread)⟩
  · exact .done rfl hmsg (by simp)

theorem matches_thenExpectAtEnd {r r' : FieldRead σ} (hok : r.ok = r'.ok)
    (hmsg : r.msg = r'.msg) (hleft : r.ok = true → lib.left r.stream = lib.left r'.stream) :
    Matches lib W (lib.thenExpectAtEnd r)
      (if r'.ok then .again ⟨none, r'.msg, r'.stream, false⟩ else failure r'.msg r'.stream) := by
  rw [thenExpectAtEnd, ← hok]
  split_ifs with hread
  · rcases hexpect : lib.expectAtEnd r.stream with ⟨_ | _, s⟩
    · exact .again hmsg rfl ((H.expectAtEnd_false hexpect).trans (hleft hread))
    · obtain ⟨hnil, hconsumed⟩ := H.expectAtEnd_true hexpect
      exact .atEnd rfl hmsg hconsumed ((hleft hread).symm.trans hnil)
  · exact .done rfl hmsg (by simp)

/-- A field that is skipped. The loops have read its tag, from where the same was left. -/
theorem matches_handleUnusual (tag : Nat) (m : RpcMessage) {s t : σ}
    (hleft : lib.left s = lib.left t)
    (hconsumed : lib.consumedEntireMessage s = lib.consumedEntireMessage t) :
    Matches lib W (lib.handleUnusual tag m s) (lib.handleUnusual tag m t) := by
  rw [handleUnusual, handleUnusual]
  split_ifs with hend
  · exact .done rfl rfl fun _ => hconsumed
  · have hskip := H.takes_skipped tag
    rcases hs : lib.skipField tag s with ⟨_ | _, s'⟩
    · rcases ht : lib.skipField tag t with ⟨_ | _, t'⟩
      · exact .done rfl rfl (by simp)
      · obtain ⟨u, hu, -⟩ := hskip.transfer hleft.symm (succeeds_eq_some_iff.mpr ht)
        rw [succeeds_eq_some_iff, hs] at hu
        cases hu
    · obtain ⟨t', ht, hrest⟩ := hskip.transfer hleft (succeeds_eq_some_iff.mpr hs)
      rw [succeeds_eq_some_iff] at ht
      rw [ht]
      exact .again rfl rfl hrest

/-- What stands behind a tag, in both loops. -/
theorem matches_switchField (tag : Nat) (m : RpcMessage) {s t : σ}
    (hleft : lib.left s = lib.left t) (hconsumed : lib.fieldReader tag = none →
      lib.consumedEntireMessage s = lib.consumedEntireMessage t) :
    Matches lib W (lib.switchField tag m s) (lib.plainField tag m t) := by
  cases hfield : lib.fieldReader tag with
  | none =>
    rw [switchField_of_none hfield, plainField, hfield]
    exact H.matches_handleUnusual tag m hleft (hconsumed hfield)
  | some read =>
    obtain ⟨hok, hmsg, hrest⟩ := (H.takesField hfield).transfer (m := m) hleft
    rw [plainField, hfield]
    rcases switchField_of_some hfield m s with ⟨next, hnext⟩ | hnext <;> rw [hnext]
    · exact H.matches_thenExpect next hok hmsg hrest
    · exact H.matches_thenExpectAtEnd hok hmsg hrest

/-- **A round of the parser is a round of the plain loop.** -/
theorem matches_mergePartialRound {s t : ParseState σ} (hmsg : s.msg = t.msg)
    (hleft : lib.Unread W s (lib.left t.stream)) :
    Matches lib W (lib.mergePartialRound s) (lib.plainRound t) := by
  obtain ⟨label, m, s, ok⟩ := s
  obtain rfl : m = t.msg := hmsg
  cases label with
  | none =>
    rcases hs : lib.readTag s with ⟨_ | tag, s'⟩
    · have hnone := H.takes_tag.transfer_none hleft (by rw [hs])
      rcases ht : lib.readTag t.stream with ⟨_ | tag, t'⟩
      · rw [mergePartialRound_none hs, plainRound, ht]
        refine .done rfl rfl fun _ => ?_
        rw [Bool.eq_iff_iff, H.consumed_none hs, H.consumed_none ht]
        exact hleft ▸ Iff.rfl
      · rw [ht] at hnone
        cases hnone
    · obtain ⟨t', ht, hrest⟩ := H.takes_tag.transfer hleft hs
      rw [H.mergePartialRound_some hs, plainRound, ht]
      exact H.matches_switchField tag _ hrest fun _ =>
        (H.consumed_some hs).trans (H.consumed_some ht).symm
  | some label =>
    obtain ⟨w, hw, htag⟩ := hleft
    obtain ⟨t', ht, hrest⟩ := H.takes_tag.read_word hw htag.symm
    rw [mergePartialRound_label, plainRound, ht]
    refine H.matches_switchField label.tag _ hrest.symm fun hnone => ?_
    cases label <;> cases hnone

/-! ### Both loops return the same -/

theorem decreasing_plainRound : Decreasing lib.plainRound lib.size := by
  intro s s' h
  rw [plainRound] at h
  rcases hread : lib.readTag s.stream with ⟨_ | tag, t⟩ <;> rw [hread] at h
  · cases h
  · obtain ⟨w, hw, hleft⟩ := H.takes_tag.exists_word hread
    have hpos := List.length_pos_iff.mpr (H.tag_ne hw).2
    have hlt : (lib.left t).length < (lib.left s.stream).length := by
      rw [hleft, List.length_append]
      omega
    have hsize : 2 * (lib.left s.stream).length ≤ lib.size s := Nat.le_add_right _ _
    simp only [plainField] at h
    cases hfield : lib.fieldReader tag with
    | none =>
      rw [hfield] at h
      obtain ⟨-, -, hlabel, v, -, hrest⟩ := H.handleUnusual_again h
      rw [hrest, List.length_append] at hlt
      rw [size, hlabel, Option.elim_none]
      omega
    | some read =>
      simp only [hfield] at h
      split_ifs at h with hok
      · obtain rfl := Round.again.inj h
        obtain ⟨f, v, -, hrest, -⟩ := (H.takesField hfield).exists_content hok
        rw [hrest, List.length_append] at hlt
        simp only [size, Option.elim_none]
        omega
      · cases h

/-- There is no tag at the end of the input. -/
theorem readTag_of_nil {s : σ} (h : lib.left s = []) : (lib.readTag s).1 = none := by
  cases hread : (lib.readTag s).1 with
  | none => rfl
  | some tag =>
    obtain ⟨w, hw, htag⟩ := H.takes_tag.exists_word
      (Prod.ext hread rfl : lib.readTag s = (some tag, (lib.readTag s).2))
    rw [h] at htag
    exact absurd (List.append_eq_nil_iff.mp htag.symm).1 (H.tag_ne hw).2

/-- The last round of the parser, and what the plain loop returns from there. -/
theorem exists_plain_of_done {s t s' : ParseState σ} (hmsg : s.msg = t.msg)
    (hleft : lib.Unread W s (lib.left t.stream)) (h : lib.mergePartialRound s = .done s') :
    ∃ t', WhileLoop.eval lib.plainRound lib.size t = some t' ∧ s'.ok = t'.ok ∧ s'.msg = t'.msg ∧
      (s'.ok = true →
        lib.consumedEntireMessage s'.stream = lib.consumedEntireMessage t'.stream) := by
  have hmatch := H.matches_mergePartialRound hmsg hleft
  rw [h] at hmatch
  generalize hround : lib.plainRound t = r at hmatch
  cases hmatch with
  | @done _ t' hok hmsg hconsumed => exact ⟨t', eval_done hround, hok, hmsg, hconsumed⟩
  | @atEnd _ t' hok hmsg hconsumed hnil =>
    -- The plain loop goes round once more, and finds nothing left.
    have hread : lib.readTag t'.stream = (none, (lib.readTag t'.stream).2) :=
      Prod.ext (H.readTag_of_nil hnil) rfl
    refine ⟨⟨none, t'.msg, (lib.readTag t'.stream).2, true⟩, ?_, hok, hmsg, fun _ => ?_⟩
    · rw [eval_again H.decreasing_plainRound hround]
      exact eval_done (by rw [plainRound, hread]; rfl)
    · rw [hconsumed, (H.consumed_none hread).mpr hnil]

/-- The two loops, from a message and a stream on. -/
theorem exists_mergePlain (m : RpcMessage) (s : σ) :
    ∃ p q, lib.mergePartialFromCodedStream m s = some p ∧ lib.mergePlain m s = some q ∧
      p.ok = q.ok ∧ p.msg = q.msg ∧ (p.ok = true →
        lib.consumedEntireMessage p.stream = lib.consumedEntireMessage q.stream) := by
  refine eval_lockstep H.decreasing_mergePartialRound H.decreasing_plainRound
    (R := fun s t => s.msg = t.msg ∧ lib.Unread W s (lib.left t.stream)) ?_ ?_ ⟨rfl, rfl⟩
  · rintro s t s' ⟨hmsg, hleft⟩ h
    have hmatch := H.matches_mergePartialRound hmsg hleft
    rw [h] at hmatch
    generalize lib.plainRound t = r at hmatch ⊢
    cases hmatch with
    | @again _ t' hmsg _ hleft => exact ⟨t', rfl, hmsg, hleft⟩
  · rintro s t s' ⟨hmsg, hleft⟩ h
    exact H.exists_plain_of_done hmsg hleft h

end Lawful

/-- What a loop returns, the message that it leaves, and whether a message that it accepts was
consumed as a whole. -/
def outcome (lib : CodedInput σ) (p : ParseState σ) : Bool × RpcMessage × Bool :=
  (p.ok, p.msg, p.ok && lib.consumedEntireMessage p.stream)

/-- **The jumps change nothing.** On every stream and for every message that it is merged into, the
generated parser with its jumps, its cutoff and its dispatch on field numbers ends, returns the
result of the plain loop and leaves the same message, also where it fails; and if they succeed,
`ConsumedEntireMessage` says the same after both. -/
theorem Lawful.mergePartialFromCodedStream_eq (H : lib.Lawful W) (m : RpcMessage) (s : σ) :
    ∃ r, (lib.mergePartialFromCodedStream m s).map lib.outcome = some r ∧
      (lib.mergePlain m s).map lib.outcome = some r := by
  obtain ⟨p, q, hp, hq, hok, hmsg, hconsumed⟩ := H.exists_mergePlain m s
  refine ⟨lib.outcome p, by rw [hp, Option.map_some], ?_⟩
  rw [hq, Option.map_some, outcome, outcome, ← hok, ← hmsg]
  cases hpok : p.ok with
  | true => rw [hconsumed hpok]
  | false => rfl

/-- A type and an id that is cut short: the parser jumps to the id, and both loops fail with the
type set. -/
theorem mergePartialFromCodedStream_eq_truncated :
    (PlainStream.codedInput.mergePartialFromCodedStream .empty ⟨[8, 1, 17, 7], false⟩).map
        PlainStream.codedInput.outcome =
      some (false, { RpcMessage.empty with type? := some .request }, false) ∧
    (PlainStream.codedInput.mergePlain .empty ⟨[8, 1, 17, 7], false⟩).map
        PlainStream.codedInput.outcome =
      some (false, { RpcMessage.empty with type? := some .request }, false) := by
  have hrun : (PlainStream.codedInput.mergePartialFromCodedStream .empty
      ⟨[8, 1, 17, 7], false⟩).map PlainStream.codedInput.outcome =
        some (false, { RpcMessage.empty with type? := some .request }, false) := by
    decide +kernel
  obtain ⟨r, hjumps, hplain⟩ :=
    PlainStream.lawful.mergePartialFromCodedStream_eq .empty ⟨[8, 1, 17, 7], false⟩
  rw [hrun] at hjumps
  exact ⟨hrun, hplain.trans hjumps.symm⟩

end CodedInput

end MRpc
