import MRpc.Codec.Limits

/-!
# Damaged frames

The checksum of a frame covers the tag and the payload. A frame in which one byte behind the length
field is replaced, or two neighbours of tag and payload are exchanged, is always found damaged:
`onMessage` calls the error callback once, with `unknownMessageType`, and hands no message over.

## Main definitions

* `Damaged`: a frame with one byte replaced or two neighbours exchanged.

## Main results

* `not_checksumOk_damaged`: the checksum of a damaged frame does not match.
* `Codec.onMessage_damaged`: what `onMessage` does with a damaged frame.
-/

namespace MRpc

open FixedWidth

variable {σ Msg : Type}

/-- A frame with one byte behind the length field replaced by another one, or with two different
neighbours between length and checksum exchanged. -/
inductive Damaged : Bytes → Bytes → Prop
  | replace {pre post : Bytes} {x y : UInt8} (hheader : headerLen ≤ pre.length) (hne : x ≠ y) :
      Damaged (pre ++ x :: post) (pre ++ y :: post)
  | swap {pre post : Bytes} {x y : UInt8} (hheader : headerLen ≤ pre.length)
      (hchecksum : checksumLen ≤ post.length) (hne : x ≠ y) :
      Damaged (pre ++ x :: y :: post) (pre ++ y :: x :: post)

theorem Damaged.length_eq {fr fr' : Bytes} (h : Damaged fr fr') : fr'.length = fr.length := by
  cases h <;> simp

/-! ### The checksum of a damaged frame -/

/-- A part of a frame that starts behind its length field. -/
theorem exists_append_of_header {head body pre rest : Bytes} (hhead : head.length = headerLen)
    (hpre : headerLen ≤ pre.length) (h : head ++ body = pre ++ rest) :
    ∃ pre', pre = head ++ pre' ∧ body = pre' ++ rest := by
  rcases List.append_eq_append_iff.mp h with ⟨pre', rfl, rfl⟩ | ⟨rest', rfl, rfl⟩
  · exact ⟨pre', rfl, rfl⟩
  · rw [List.length_append] at hhead
    obtain rfl : rest' = [] := List.length_eq_zero_iff.mp (by omega)
    exact ⟨[], by simp, by simp⟩

theorem checksumOk_append {d sum : Bytes} (hsum : sum.length = 4) :
    Codec.ChecksumOk (d ++ sum) ↔ Adler.adler32 Adler.init d = beNat sum := by
  have hcut : (d ++ sum).length - 4 = d.length := by
    rw [List.length_append, hsum]
    omega
  rw [Codec.ChecksumOk, hcut, List.take_left, List.drop_left]

/-- A byte of `d ++ sum` is in `sum` or in `d`. -/
theorem append_eq_append_cons {d sum pre post : Bytes} {x : UInt8}
    (h : d ++ sum = pre ++ x :: post) :
    (∃ pre', pre = d ++ pre' ∧ sum = pre' ++ x :: post) ∨
      ∃ d', d = pre ++ x :: d' ∧ post = d' ++ sum := by
  rcases List.append_eq_append_iff.mp h with ⟨pre', hpre, hsum⟩ | ⟨d', rfl, hd'⟩
  · exact Or.inl ⟨pre', hpre, hsum⟩
  · rcases d' with _ | ⟨x', d'⟩
    · exact Or.inl ⟨[], by simp, by simpa using hd'.symm⟩
    · rw [List.cons_append, List.cons.injEq] at hd'
      obtain ⟨rfl, rfl⟩ := hd'
      exact Or.inr ⟨d', rfl, rfl⟩

/-- The checksum of a body of `d` and four checksum bytes does not match when it matched before a
byte was replaced. -/
theorem not_checksumOk_replace {d sum pre post : Bytes} {x y : UInt8} (hsum : sum.length = 4)
    (hok : Codec.ChecksumOk (d ++ sum)) (hbody : d ++ sum = pre ++ x :: post) (hne : x ≠ y) :
    ¬ Codec.ChecksumOk (pre ++ y :: post) := by
  rw [checksumOk_append hsum] at hok
  rcases append_eq_append_cons hbody with ⟨pre', rfl, rfl⟩ | ⟨d', rfl, rfl⟩
  · -- A byte of the checksum: the word that is compared has changed.
    have hsum' : (pre' ++ y :: post).length = 4 := by simpa using hsum
    rw [List.append_assoc, checksumOk_append hsum', hok]
    intro heq
    have hword := beNat_injective hsum hsum' heq
    exact hne (List.cons.inj (List.append_cancel_left hword)).1
  · -- A byte of tag or payload: the computed checksum has changed.
    have hassoc : pre ++ y :: (d' ++ sum) = (pre ++ y :: d') ++ sum := by simp
    rw [hassoc, checksumOk_append hsum, ← hok]
    exact (Adler.adler32_replace_ne Adler.init pre d' hne).symm

/-- The same for two neighbours in front of the checksum. -/
theorem not_checksumOk_swap {d sum pre post : Bytes} {x y : UInt8} (hsum : sum.length = 4)
    (hok : Codec.ChecksumOk (d ++ sum)) (hbody : d ++ sum = pre ++ x :: y :: post)
    (hpost : 4 ≤ post.length) (hne : x ≠ y) : ¬ Codec.ChecksumOk (pre ++ y :: x :: post) := by
  rw [checksumOk_append hsum] at hok
  have hsplit : post = post.take (post.length - 4) ++ sum := by
    have hassoc : pre ++ x :: y :: post =
        (pre ++ x :: y :: post.take (post.length - 4)) ++ post.drop (post.length - 4) := by simp
    rw [hassoc] at hbody
    obtain ⟨-, rfl⟩ := List.append_inj' hbody (by rw [hsum, List.length_drop]; omega)
    rw [List.take_append_drop]
  generalize post.take (post.length - 4) = mid at hsplit
  subst hsplit
  have hd : d = pre ++ x :: y :: mid := by
    have hassoc : pre ++ x :: y :: (mid ++ sum) = (pre ++ x :: y :: mid) ++ sum := by simp
    rw [hassoc] at hbody
    exact List.append_cancel_right hbody
  have hassoc : pre ++ y :: x :: (mid ++ sum) = (pre ++ y :: x :: mid) ++ sum := by simp
  rw [hassoc, checksumOk_append hsum, ← hok, hd]
  exact (Adler.adler32_swap_ne Adler.init pre mid hne).symm

/-- A damaged frame has its length field, and a body whose checksum does not match. -/
theorem not_checksumOk_damaged {head d sum fr' : Bytes} (hhead : head.length = headerLen)
    (hsum : sum.length = 4) (hok : Codec.ChecksumOk (d ++ sum))
    (h : Damaged (head ++ (d ++ sum)) fr') :
    ∃ body', fr' = head ++ body' ∧ ¬ Codec.ChecksumOk body' := by
  generalize hfr : head ++ (d ++ sum) = fr at h
  cases h with
  | replace hheader hne =>
    obtain ⟨pre', rfl, hbody⟩ := exists_append_of_header hhead hheader hfr
    exact ⟨_, List.append_assoc .., not_checksumOk_replace hsum hok hbody hne⟩
  | swap hheader hchecksum hne =>
    obtain ⟨pre', rfl, hbody⟩ := exists_append_of_header hhead hheader hfr
    exact ⟨_, List.append_assoc .., not_checksumOk_swap hsum hok hbody hchecksum hne⟩

/-! ### The decoder on a damaged frame -/

namespace Codec

variable {c : Codec Msg}

theorem checksumOk_wireBody (m : Msg) : ChecksumOk (c.wireBody m) := by
  rw [wireBody, checksumOk_append (length_be32 _), beNat_be32 (Adler.adler32_lt _ _)]

/-- **Damage to the body of a frame is detected.** On a buffer that holds the frame of a message
with one byte of tag, payload or checksum replaced, or two different neighbours of tag and payload
exchanged, `onMessage` without `rawCb` ends, calls the error callback once and hands no message
over. -/
theorem onMessage_damaged {m : Msg} {fr fr' : Bytes} (hfr : c.IsFrame m fr)
    (hlen : fr.length ≤ headerLen + maxMessageLen) (hdamage : Damaged fr fr')
    {cb : Callbacks σ Msg} (hcb : cb.rawCb = none) (env : σ) :
    ∃ s', c.onMessage cb ⟨fr', env, []⟩ = some s' ∧ (errors s'.trace).length = 1 ∧
      messages s'.trace = [] := by
  obtain ⟨rfl, hmax⟩ := hfr.eq_wireFrame_of_length hlen
  have hsize := hdamage.length_eq
  obtain ⟨body', rfl, hbad⟩ := not_checksumOk_damaged (length_be32 _) (length_be32 _)
    (checksumOk_wireBody m) hdamage
  have hbody : body'.length = (c.wireBody m).length := by
    simpa only [List.length_append, length_be32, Nat.add_left_cancel_iff] using hsize
  have hlo : c.tag.length + 4 ≤ body'.length := by
    rw [hbody, length_wireBody]
    omega
  have hhi : body'.length ≤ maxMessageLen := hbody.trans_le hmax
  have hverdict : c.verdict body' = (.unknownMessageType, c.proto.new) := by
    rw [verdict, if_neg hbad]
  rw [← hbody, onMessage_single hlo hhi cb env []]
  refine ⟨_, rfl, ?_⟩
  rcases onMessageBody_single hlo hhi cb env with ⟨env', raw, ⟨hraw, -⟩ | ⟨hraw, ⟨m', hv, -⟩ |
    ⟨e, m', he, hv, hb⟩⟩⟩ <;>
    simp only [Callbacks.callRaw, hcb, Prod.mk.injEq] at hraw
  · exact absurd hraw.1 (by decide)
  · rw [hverdict] at hv
    cases hv
  · obtain ⟨-, -, rfl⟩ := hraw
    rw [hb]
    exact ⟨rfl, rfl⟩

end Codec

/-- The frame of `putRequest`, with the first byte of its tag replaced. -/
theorem onMessage_damaged_putRequest :
    ∃ fr', Damaged (rpcCodec.wireFrame putRequest) fr' ∧
      ∃ s', rpcCodec.onMessage plainCallbacks ⟨fr', (), []⟩ = some s' ∧
        (errors s'.trace).length = 1 ∧ messages s'.trace = [] := by
  have hsplit : rpcCodec.wireFrame putRequest =
      (rpcCodec.wireFrame putRequest).take 4 ++ 109 ::
        (rpcCodec.wireFrame putRequest).drop 5 := by decide +kernel
  have hdamage : Damaged (rpcCodec.wireFrame putRequest)
      ((rpcCodec.wireFrame putRequest).take 4 ++ 77 ::
        (rpcCodec.wireFrame putRequest).drop 5) := by
    nth_rewrite 1 [hsplit]
    exact .replace (by decide +kernel) (by decide)
  exact ⟨_, hdamage, Codec.onMessage_damaged isFrame_putRequest (by decide +kernel) hdamage rfl ()⟩

end MRpc
