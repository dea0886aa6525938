import MRpc.Tcp.Workers

/-!
# Shutting the server down

`quit` writes `EXIT_CODE` to the pipe of every worker and lets the main loop run on for a while. A
worker leaves its loop when it finds `EXIT_CODE`, so a descriptor behind it, or one that is written
to the pipe later, is *stranded*: it was accepted, and nobody will read, serve or close it.
`acceptCb` knows nothing of `quit`. A run strands no descriptor exactly when it accepts none after a
`quit`.

## Main definitions

* `TcpServer.Stranded`: a descriptor that its worker will not read.
* `TcpServer.Orderly`, `TcpServer.Open`: a worker whose pipe strands nothing, and a worker that has
  not been told to leave.

## Main results

* `TcpServer.orderly_concat_iff`, `TcpServer.Orderly.tail`: what an accept and a notification do to
  a pipe.
* `TcpServer.open_iff_of_run`: a worker is open exactly until the first `quit`.
* `TcpServer.throughout_not_stranded_iff`: the runs that strand nothing.
-/

namespace MRpc

open FixedWidth History Machine

namespace TcpServer

/-- The descriptor waits in the pipe of a worker that has left its loop, or behind an
`EXIT_CODE`. -/
def Stranded (s : TcpServer) (fd : Int) : Prop :=
  ∃ (i : Nat) (t : LibeventThread), s.threads[i]? = some t ∧ fd ≠ exitCode ∧ fd ∈ t.pipe ∧
    (t.looping = false ∨ ∃ front back, t.pipe = front ++ exitCode :: back ∧ fd ∈ back)

/-! ### One pipe -/

/-- In this pipe there is no descriptor behind an `EXIT_CODE`, and none at all if the loop of the
worker has ended. -/
structure Orderly (duty : List Int × Bool) : Prop where
  behind : ∀ front back, duty.1 = front ++ exitCode :: back → ∀ fd ∈ back, fd = exitCode
  ended : duty.2 = false → ∀ fd ∈ duty.1, fd = exitCode

/-- The worker has not been told to leave. -/
def Open (duty : List Int × Bool) : Prop := exitCode ∉ duty.1 ∧ duty.2 = true

variable {pipe : List Int} {looping : Bool} {fd : Int}

/-- A descriptor that comes to an orderly pipe is not stranded exactly when the worker is open. -/
theorem orderly_concat_iff (hfd : fd ≠ exitCode) (H : Orderly (pipe, looping)) :
    Orderly (pipe ++ [fd], looping) ↔ Open (pipe, looping) := by
  constructor
  · intro H'
    refine ⟨fun hexit => ?_, ?_⟩
    · obtain ⟨front, back, rfl⟩ := List.append_of_mem hexit
      exact hfd (H'.behind front (back ++ [fd]) (by simp) fd (by simp))
    · by_contra hloop
      exact hfd (H'.ended (by simpa using hloop) fd (by simp))
  · rintro ⟨hexit, hloop⟩
    refine ⟨fun front back heq => ?_, fun hended => ?_⟩
    · rcases concat_eq_append_cons heq with ⟨-, rfl, -⟩ | ⟨mid, -, rfl⟩
      · exact absurd rfl hfd
      · exact absurd (by simp) hexit
    · rw [hloop] at hended
      cases hended

theorem Orderly.concat_exit (H : Orderly (pipe, looping)) :
    Orderly (pipe ++ [exitCode], looping) := by
  refine ⟨fun front back heq x hx => ?_, fun hended x hx => ?_⟩
  · rcases concat_eq_append_cons heq with ⟨-, -, rfl⟩ | ⟨mid, rfl, hmid⟩
    · cases hx
    · rcases List.mem_append.mp hx with hx | hx
      · exact H.behind front mid hmid x hx
      · exact List.mem_singleton.mp hx
  · rcases List.mem_append.mp hx with hx | hx
    · exact H.ended hended x hx
    · exact List.mem_singleton.mp hx

/-- A worker takes the first value from an orderly pipe. -/
theorem Orderly.tail {value : Int} (H : Orderly (value :: pipe, looping)) :
    Orderly (pipe, if value = exitCode then false else looping) := by
  refine ⟨fun front back heq => ?_, fun hended x hx => ?_⟩
  · exact H.behind (value :: front) back (congrArg (value :: ·) heq)
  · split_ifs at hended with hexit
    · exact H.behind [] pipe (by rw [hexit]; rfl) x hx
    · exact H.ended hended x (List.mem_cons_of_mem value hx)

theorem open_concat_iff (hfd : fd ≠ exitCode) :
    Open (pipe ++ [fd], looping) ↔ Open (pipe, looping) := by
  simp [Open, Ne.symm hfd]

theorem open_tail_iff {value : Int} :
    Open (pipe, if value = exitCode then false else looping) ↔ Open (value :: pipe, looping) := by
  by_cases hexit : value = exitCode
  · simp [Open, hexit]
  · simp [Open, hexit, Ne.symm hexit]

theorem not_open_concat_exit : ¬ Open (pipe ++ [exitCode], looping) := by
  simp [Open]

/-! ### One step -/

variable {s t : TcpServer}

theorem not_stranded_iff :
    (∀ fd, ¬ s.Stranded fd) ↔ ∀ i duty, s.duty i = some duty → Orderly duty := by
  constructor
  · intro H i duty hduty
    obtain ⟨u, hu, rfl⟩ := Option.map_eq_some_iff.mp hduty
    refine ⟨fun front back heq fd hfd => ?_, fun hended fd hfd => ?_⟩
    · by_contra hexit
      have hpipe : u.pipe = front ++ exitCode :: back := heq
      exact H fd ⟨i, u, hu, hexit, by simp [hpipe, hfd], Or.inr ⟨front, back, hpipe, hfd⟩⟩
    · by_contra hexit
      exact H fd ⟨i, u, hu, hexit, hfd, Or.inl hended⟩
  · rintro H fd ⟨i, u, hu, hexit, hmem, hended | ⟨front, back, heq, hfd⟩⟩
    · exact hexit ((H i _ (by rw [duty, hu]; rfl)).ended hended fd hmem)
    · exact hexit ((H i _ (by rw [duty, hu]; rfl)).behind front back heq fd hfd)

/-- A step strands nothing exactly when it accepts no descriptor for a worker that was told to
leave. -/
theorem orderly_step_iff {a : TcpAction} (h : s.next a = some t)
    (H : ∀ i duty, s.duty i = some duty → Orderly duty) :
    (∀ i duty, t.duty i = some duty → Orderly duty) ↔
      ∀ fd, a = .accept fd → ∀ duty, s.duty s.leastLoaded = some duty → Open duty := by
  obtain ⟨hen, hstep⟩ := step_of_next h
  constructor
  · rintro H' fd rfl duty hduty
    obtain ⟨u, hu, hview⟩ := view_accept hstep
    have hnew : t.duty s.leastLoaded = some (u.pipe ++ [fd], u.looping) := by
      rw [duty_eq_view, hview, if_pos rfl]
      rfl
    obtain rfl : duty = (u.pipe, u.looping) := by
      rw [TcpServer.duty, hu] at hduty
      exact (Option.some.inj hduty).symm
    exact (orderly_concat_iff (ne_exitCode_of_enabled hen) (H _ _ hduty)).mp (H' _ _ hnew)
  · intro hopen i new hnew
    obtain ⟨⟨pipe, looping⟩, hold, ⟨fd, rfl, rfl, rfl⟩ | ⟨value, rest, -, hpipe, rfl⟩ | ⟨-, rfl⟩ |
      ⟨-, rfl⟩⟩ := duty_cases hstep hnew
    · exact (orderly_concat_iff (ne_exitCode_of_enabled hen) (H _ _ hold)).mpr
        (hopen fd rfl _ hold)
    · obtain rfl : pipe = value :: rest := hpipe
      exact (H _ _ hold).tail
    · exact (H _ _ hold).concat_exit
    · exact H _ _ hold

/-! ### Whole runs -/

theorem duty_new {count i : Nat} {duty : List Int × Bool}
    (h : (TcpServer.new count).duty i = some duty) : duty = ([], true) := by
  rw [duty_eq_view] at h
  obtain ⟨v, hv, rfl⟩ := Option.map_eq_some_iff.mp h
  rw [view_new hv]

/-- A worker is open exactly until the first `quit`. -/
theorem open_iff_of_run {count : Nat} {as : List TcpAction}
    (h : run TcpServer.next (TcpServer.new count) as = some s) {i : Nat} {duty : List Int × Bool}
    (hduty : s.duty i = some duty) : Open duty ↔ .quit ∉ as := by
  induction as using List.reverseRecOn generalizing s i duty with
  | nil =>
    obtain rfl := Option.some.inj h
    rw [duty_new hduty]
    simp [Open]
  | append_singleton as a ih =>
    rw [run_concat] at h
    obtain ⟨u, hu, hstep⟩ := Option.bind_eq_some_iff.mp h
    obtain ⟨hen, hstep⟩ := step_of_next hstep
    obtain ⟨⟨pipe, looping⟩, hold, ⟨fd, rfl, -, rfl⟩ | ⟨value, rest, rfl, hpipe, rfl⟩ | ⟨rfl, rfl⟩ |
      ⟨hquit, rfl⟩⟩ := duty_cases hstep hduty
    · rw [open_concat_iff (ne_exitCode_of_enabled hen), ih hu hold]
      simp
    · obtain rfl : pipe = value :: rest := hpipe
      rw [open_tail_iff, ih hu hold]
      simp
    · exact iff_of_false not_open_concat_exit (by simp)
    · rw [ih hu hold]
      simp [Ne.symm hquit]

/-- **The runs that strand nothing.** In every state on the way of a run, no accepted descriptor is
behind an `EXIT_CODE` or with a worker that has left its loop, exactly when the run accepts none
after a `quit`. -/
theorem throughout_not_stranded_iff {count : Nat} {as : List TcpAction}
    (h : run TcpServer.next (TcpServer.new count) as = some s) :
    Throughout TcpServer.next (fun s => ∀ fd, ¬ s.Stranded fd) (TcpServer.new count) as ↔
      Always (fun before a => ∀ fd, a = .accept fd → .quit ∉ before) as := by
  simp only [not_stranded_iff]
  rw [throughout_iff_eachStep (C := fun s a => ∀ fd, a = .accept fd →
    ∀ duty, s.duty s.leastLoaded = some duty → Open duty)]
  · refine eachStep_iff_always (fun before a u v hu hstep => forall₂_congr fun fd hfd => ?_) h
    subst hfd
    obtain ⟨w, hw, -⟩ := view_accept (step_of_next hstep).2
    have hduty : u.duty u.leastLoaded = some (w.pipe, w.looping) := by
      rw [TcpServer.duty, hw]
      rfl
    rw [← open_iff_of_run hu hduty]
    constructor
    · exact fun hopen => hopen _ hduty
    · intro hopen duty hduty'
      obtain rfl := Option.some.inj (hduty.symm.trans hduty')
      exact hopen
  · intro i duty hduty
    rw [duty_new hduty]
    exact ⟨by simp, by simp⟩
  · exact fun s a t _ _ H hstep => orderly_step_iff hstep H

/-- A connection is served before the worker leaves. -/
theorem not_stranded_acceptThenQuit :
    ∃ s, run TcpServer.next (TcpServer.new 1) [.accept 5, .quit, .notify 0, .notify 0] = some s ∧
      Throughout TcpServer.next (fun s => ∀ fd, ¬ s.Stranded fd) (TcpServer.new 1)
        [.accept 5, .quit, .notify 0, .notify 0] := by
  obtain ⟨s, hs⟩ := Option.isSome_iff_exists.mp (by decide +kernel :
    (run TcpServer.next (TcpServer.new 1) [.accept 5, .quit, .notify 0, .notify 0]).isSome = true)
  refine ⟨s, hs, (throughout_not_stranded_iff hs).mpr ?_⟩
  rintro before a after heq fd rfl
  rcases before with _ | ⟨b, before⟩
  · exact List.not_mem_nil
  · have hmem : .accept fd ∈ [TcpAction.quit, .notify 0, .notify 0] := by
      rw [(List.cons.inj heq).2]
      simp
    simp at hmem

/-- A connection that is accepted after `quit` waits behind the `EXIT_CODE`. -/
theorem stranded_quitThenAccept :
    ∃ s, run TcpServer.next (TcpServer.new 1) [.quit, .accept 5] = some s ∧ s.Stranded 5 :=
  ⟨_, rfl, 0, _, rfl, by decide, by decide, Or.inr ⟨[], [5], rfl, by decide⟩⟩

end TcpServer

end MRpc
