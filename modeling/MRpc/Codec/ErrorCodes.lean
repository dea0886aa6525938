import MRpc.Codec.Validity

/-!
# The codes that the decoder reports

`parse` makes three tests on a complete frame, one inside the other: the checksum, the tag and the
payload. The codes for a failed test stand one level too far out. A wrong checksum is reported as
`unknownMessageType` (the branch that assigns `checkSumError` is commented out), a wrong tag as
`parseError`, and a payload that does not parse is not reported. So no code that is reported for a
complete frame names the test that failed.

## Main definitions

* `Codec.NamesFailedCheck`: the code is that of the test which the frame fails.
* `Codec.CodesNameChecks`: every code that a call reports for a complete frame is of this kind.
* `Codec.RefusesFrame`: a round meets a frame whose checksum or tag does not match.

## Main results

* `Codec.verdict_eq_unknownMessageType`, `Codec.verdict_eq_parseError`: what the codes stand for.
* `Codec.codesNameChecks_iff`: the codes name the failed test exactly where no frame is refused.
-/

namespace MRpc

open FixedWidth

variable {σ Msg : Type}

namespace Codec

variable (c : Codec Msg) (cb : Callbacks σ Msg)

/-- `code` names the test that the frame `body` fails. -/
def NamesFailedCheck (code : ErrorCode) (body : Bytes) : Prop :=
  (code = .checkSumError ↔ ¬ ChecksumOk body) ∧
    (code = .unknownMessageType ↔ ChecksumOk body ∧ body.take c.tag.length ≠ c.tag) ∧
    (code = .parseError ↔ ChecksumOk body ∧ body.take c.tag.length = c.tag ∧
      (c.proto.parseFromArray (c.payload body)).1 = false)

/-- Whenever a call of `onMessage` invokes the error callback for a complete frame of admissible
length, the code names the test that this frame fails. -/
def CodesNameChecks (readBuf : Bytes) (env : σ) : Prop :=
  ∀ h, c.Visits cb ⟨readBuf, env, []⟩ h → ∀ body, c.HandedToParse cb h body →
    ∀ code, .errorCallback code ∈ (c.onMessageBody cb h.readBuf h.env).events →
      c.NamesFailedCheck code body

/-- The round from `h` hands to `parse` a frame whose checksum does not match or whose tag is not
that of the codec. -/
def RefusesFrame (h : ReadState σ Msg) : Prop :=
  ∃ body, c.HandedToParse cb h body ∧ (¬ ChecksumOk body ∨ body.take c.tag.length ≠ c.tag)

variable {c cb} {h : ReadState σ Msg} {body : Bytes}

/-- The code `unknownMessageType` stands for a checksum that does not match. -/
theorem verdict_eq_unknownMessageType :
    (c.verdict body).1 = .unknownMessageType ↔ ¬ ChecksumOk body := by
  rw [verdict]
  split_ifs with hsum htag <;> simp [hsum]

/-- The code `parseError` stands for a tag that is not that of the codec. -/
theorem verdict_eq_parseError :
    (c.verdict body).1 = .parseError ↔ ChecksumOk body ∧ body.take c.tag.length ≠ c.tag := by
  rw [verdict]
  split_ifs with hsum htag
  · simp [htag]
  · simp [hsum, htag]
  · simp [hsum]

/-- The code that a round reports for a complete frame is the verdict on it. -/
theorem errorCallback_mem_iff (hh : c.HandedToParse cb h body) (code : ErrorCode) :
    .errorCallback code ∈ (c.onMessageBody cb h.readBuf h.env).events ↔
      code ≠ .noError ∧ (c.verdict body).1 = code := by
  obtain ⟨raw, n, hraw, hev⟩ := events_of_handedToParse hh
  have hnot : .errorCallback code ∉ raw := by
    rcases hraw with rfl | rfl <;> simp
  rw [hev]
  split_ifs with hok
  · simp only [List.mem_append, hnot, hok, List.mem_cons, List.not_mem_nil, reduceCtorEq]
    grind
  · simp only [List.mem_append, hnot, List.mem_cons, List.not_mem_nil, reduceCtorEq]
    grind

/-- The verdict on a frame never names the test that the frame fails. -/
theorem not_namesFailedCheck_verdict (hbad : (c.verdict body).1 ≠ .noError) :
    ¬ c.NamesFailedCheck (c.verdict body).1 body := by
  rintro ⟨-, htag, hparse⟩
  by_cases hsum : ChecksumOk body
  · -- The tag is wrong, and the code says that the payload does not parse.
    have hne : body.take c.tag.length ≠ c.tag := fun heq =>
      hbad (verdict_eq_noError.mpr ⟨hsum, heq⟩)
    exact hne (hparse.mp (verdict_eq_parseError.mpr ⟨hsum, hne⟩)).2.1
  · -- The checksum is wrong, and the code says that the tag is.
    exact hsum (htag.mp (verdict_eq_unknownMessageType.mpr hsum)).1

/-- **The reported codes name the failed test** in a call of `onMessage` if and only if no round of
the call meets a complete frame whose checksum or tag does not match: what is reported for such a
frame is always the code of another test. -/
theorem codesNameChecks_iff (readBuf : Bytes) (env : σ) :
    c.CodesNameChecks cb readBuf env ↔
      ∀ h, c.Visits cb ⟨readBuf, env, []⟩ h → ¬ c.RefusesFrame cb h := by
  constructor
  · rintro hnames h hvis ⟨body, hh, hrefused⟩
    have hbad : (c.verdict body).1 ≠ .noError := by
      intro h0
      obtain ⟨hsum, htag⟩ := verdict_eq_noError.mp h0
      exact hrefused.elim (· hsum) (· htag)
    have hreported := (errorCallback_mem_iff hh _).mpr ⟨hbad, rfl⟩
    exact not_namesFailedCheck_verdict hbad (hnames h hvis body hh _ hreported)
  · intro hgood h hvis body hh code hcode
    obtain ⟨hne, hv⟩ := (errorCallback_mem_iff hh code).mp hcode
    refine absurd (hv.symm.trans (verdict_eq_noError.mpr ?_)) hne
    by_contra hfail
    exact hgood h hvis ⟨body, hh, not_and_or.mp hfail⟩

/-- A frame of the program with an empty payload and four zero bytes for its checksum. -/
def zeroChecksumFrame : Bytes := be32 8 ++ (rpctag ++ [0, 0, 0, 0])

/-- The wrong checksum is reported as `unknownMessageType`. -/
theorem not_codesNameChecks_zeroChecksum :
    ¬ rpcCodec.CodesNameChecks plainCallbacks zeroChecksumFrame () := by
  intro hnames
  have hvisit : rpcCodec.minFrameLen ≤ getReadBufferLen zeroChecksumFrame := by decide +kernel
  have hhanded : rpcCodec.HandedToParse plainCallbacks ⟨zeroChecksumFrame, (), []⟩
      (zeroChecksumFrame.drop 4) :=
    ⟨[], by decide +kernel, by decide +kernel, by decide +kernel, by decide +kernel,
      by decide +kernel, rfl⟩
  have hevents : (rpcCodec.onMessageBody plainCallbacks zeroChecksumFrame ()).events =
      [.parse 8 8, .errorCallback .unknownMessageType] := by decide +kernel
  have hsum : ¬ ChecksumOk (zeroChecksumFrame.drop 4) := by decide +kernel
  obtain ⟨-, htag, -⟩ := hnames _ ⟨.refl, hvisit⟩ _ hhanded .unknownMessageType
    (by rw [hevents]; simp)
  exact hsum (htag.mp rfl).1

end Codec

end MRpc
