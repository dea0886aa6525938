import MRpc.Lib.Simulation
import MRpc.Tcp.Workers
import Mathlib.Algebra.BigOperators.Group.Finset.Basic
import Mathlib.Data.Set.List

/-!
# What the workers take from their pipes

The main thread writes descriptors and `EXIT_CODE`s into the pipes of the workers, and each worker
is notified as long as it runs its loop and its pipe is not empty. The workers are notified in any
order. Whatever the order is, the notifications come to an end, after as many of them as the pipes
ask for, and leave one and the same outcome: a worker has set up a connection for each descriptor
that was in front of the first `EXIT_CODE` in its pipe, and none for those behind it.

## Main definitions

* `TcpServer.upcoming`, `TcpServer.settled`, `TcpServer.notices`: the descriptors that a worker will
  take, what it will leave, and how often it will be notified.
* `TcpServer.HasConn`: a worker has a connection for a descriptor.
* `TcpServer.SameOutcome`: two states that the workers take to the same outcome.

## Main results

* `TcpServer.sameOutcome_notify`, `TcpServer.noticeCount_notify`: what one notification preserves,
  and what it uses up.
* `TcpServer.handover_of_reachable`: every order of notifications ends, in the same outcome.
-/

namespace MRpc

open FixedWidth Machine

namespace TcpServer

/-! ### One pipe -/

/-- The descriptors that a worker will take from its pipe. -/
def upcoming (duty : List Int × Bool) : List Int :=
  if duty.2 then duty.1.takeWhile (· ≠ exitCode) else []

/-- What will be left in the pipe, and whether the worker will still run its loop. -/
def settled (duty : List Int × Bool) : List Int × Bool :=
  if duty.2 then
    match duty.1.dropWhile (· ≠ exitCode) with
    | [] => ([], true)
    | _ :: behind => (behind, false)
  else duty

/-- How often the worker will be notified: for each of these descriptors, and for `EXIT_CODE`. -/
def notices (duty : List Int × Bool) : Nat :=
  if duty.2 then (upcoming duty).length + if exitCode ∈ duty.1 then 1 else 0 else 0

variable {pipe : List Int} {value : Int}

theorem upcoming_cons : upcoming (value :: pipe, true) =
    if value = exitCode then [] else value :: upcoming (pipe, true) := by
  by_cases hvalue : value = exitCode
  · simp [upcoming, hvalue]
  · simp [upcoming, hvalue]

theorem settled_cons :
    settled (value :: pipe, true) = settled (pipe, decide (value ≠ exitCode)) := by
  by_cases hvalue : value = exitCode
  · simp [settled, hvalue]
  · simp [settled, hvalue]

theorem notices_cons :
    notices (value :: pipe, true) = notices (pipe, decide (value ≠ exitCode)) + 1 := by
  by_cases hvalue : value = exitCode
  · simp [notices, upcoming, hvalue]
  · have hmem : exitCode ∈ value :: pipe ↔ exitCode ∈ pipe := by
      simp [Ne.symm hvalue]
    simp only [notices, upcoming_cons, hmem, hvalue, if_true, if_false, List.length_cons, ne_eq,
      not_false_eq_true, decide_true]
    omega

/-- A worker that is not notified any more has settled. -/
theorem settled_of_idle {duty : List Int × Bool} (h : duty.2 = false ∨ duty.1 = []) :
    settled duty = duty ∧ upcoming duty = [] ∧ notices duty = 0 := by
  obtain ⟨pipe, looping⟩ := duty
  rcases h with rfl | rfl
  · simp [settled, upcoming, notices]
  · cases looping <;> simp [settled, upcoming, notices]

/-! ### One notification -/

variable {s t : TcpServer}

/-- The worker `i` has a connection for the descriptor. -/
def HasConn (s : TcpServer) (i : Nat) (fd : Int) : Prop :=
  ∃ b e, s.bevs b = some e ∧ e.fd = fd ∧ e.base = i

/-- The worker `i` has a connection for the descriptor, or will set one up. -/
def WillHaveConn (s : TcpServer) (i : Nat) (fd : Int) : Prop :=
  s.HasConn i fd ∨ ∃ duty, s.duty i = some duty ∧ fd ∈ upcoming duty

/-- How many notifications the workers ask for. -/
def noticeCount (s : TcpServer) : Nat :=
  ∑ i ∈ Finset.range s.threads.length, (s.duty i).elim 0 notices

/-- The workers take both states to the same outcome. -/
structure SameOutcome (s t : TcpServer) : Prop where
  settled : ∀ i, (t.duty i).map settled = (s.duty i).map settled
  willHaveConn : ∀ i fd, t.WillHaveConn i fd ↔ s.WillHaveConn i fd
  openFds : t.openFds = s.openFds

/-- What `notifyHandler` does to pipes, bufferevents and descriptors. -/
theorem next_notify {i : Nat} (h : s.next (.notify i) = some t) :
    ∃ value pipe, s.duty i = some (value :: pipe, true) ∧
      (∀ j, t.duty j = if j = i then some (pipe, decide (value ≠ exitCode)) else s.duty j) ∧
      (∀ b, t.bevs b =
        if value ≠ exitCode ∧ b = s.fresh then some ⟨value, s.fresh + 1, i⟩ else s.bevs b) ∧
      t.openFds = s.openFds ∧ t.threads.length = s.threads.length := by
  obtain ⟨henabled, hstep⟩ := step_of_next h
  obtain ⟨u, value, pipe, hu, hpipe, hview⟩ := view_notify hstep
  have hloops : u.looping = true := by
    simp only [enabled, loops, hu, Option.any_some, Bool.and_eq_true] at henabled
    exact henabled.1
  refine ⟨value, pipe, by simp [duty, hu, hpipe, hloops], fun j => ?_, ?_⟩
  · rw [duty_eq_view, hview, duty_eq_view]
    by_cases hexit : value = exitCode
    · split_ifs <;> simp [hexit]
    · split_ifs <;> simp [hexit, hloops]
  · simp only [step, notifyHandler, hu, hpipe, Option.bind_eq_bind, Option.bind_some] at hstep
    split_ifs at hstep with hexit
    · obtain rfl := Option.some.inj hstep
      exact ⟨fun b => by simp [hexit], rfl, by simp⟩
    · simp only [Option.bind_eq_some_iff, Option.pure_def, Option.some.injEq] at hstep
      obtain ⟨⟨heap, queue⟩, -, heap', -, rfl⟩ := hstep
      exact ⟨fun b => by simp [hexit], rfl, by simp⟩

/-- A notification uses up one of those that the workers ask for. -/
theorem noticeCount_notify {i : Nat} (h : s.next (.notify i) = some t) :
    t.noticeCount + 1 = s.noticeCount := by
  obtain ⟨value, pipe, hduty, hnew, -, -, hlength⟩ := next_notify h
  have hi : i ∈ Finset.range s.threads.length := by
    obtain ⟨u, hu, -⟩ := Option.map_eq_some_iff.mp hduty
    exact Finset.mem_range.mpr (List.getElem?_eq_some_iff.mp hu).1
  have hothers : ∑ j ∈ (Finset.range s.threads.length).erase i, (t.duty j).elim 0 notices =
      ∑ j ∈ (Finset.range s.threads.length).erase i, (s.duty j).elim 0 notices := by
    refine Finset.sum_congr rfl fun j hj => ?_
    rw [hnew, if_neg (Finset.ne_of_mem_erase hj)]
  rw [noticeCount, noticeCount, hlength, ← Finset.sum_erase_add _ _ hi,
    ← Finset.sum_erase_add _ _ hi, hothers, hnew, if_pos rfl, hduty, Option.elim_some,
    Option.elim_some, notices_cons, Nat.add_assoc]

/-- **A notification does not change the outcome.** -/
theorem sameOutcome_notify {i : Nat} (hfresh : s.bevs s.fresh = none)
    (h : s.next (.notify i) = some t) : SameOutcome s t := by
  obtain ⟨value, pipe, hduty, hnew, hbevs, hopen, -⟩ := next_notify h
  refine ⟨fun j => ?_, fun j fd => ?_, hopen⟩
  · rw [hnew]
    split_ifs with hj
    · rw [hj, hduty, Option.map_some, Option.map_some, settled_cons]
    · rfl
  -- A descriptor that has left the pipe has a connection now.
  have hconn : t.HasConn j fd ↔ s.HasConn j fd ∨ value ≠ exitCode ∧ j = i ∧ fd = value := by
    constructor
    · rintro ⟨b, e, hb, rfl, rfl⟩
      rw [hbevs] at hb
      split_ifs at hb with hvalue
      · cases hb
        exact Or.inr ⟨hvalue.1, rfl, rfl⟩
      · exact Or.inl ⟨b, e, hb, rfl, rfl⟩
    · rintro (⟨b, e, hb, rfl, rfl⟩ | ⟨hvalue, rfl, rfl⟩)
      · refine ⟨b, e, ?_, rfl, rfl⟩
        have hne : b ≠ s.fresh := fun heq => by simp [heq, hfresh] at hb
        rw [hbevs, if_neg fun h => hne h.2, hb]
      · exact ⟨s.fresh, _, by rw [hbevs, if_pos ⟨hvalue, rfl⟩], rfl, rfl⟩
  rw [WillHaveConn, WillHaveConn, hconn, hnew]
  by_cases hj : j = i
  · by_cases hvalue : value = exitCode
    · simp [hj, hduty, hvalue, upcoming]
    · simp [hj, hduty, hvalue, upcoming_cons, or_assoc]
  · simp [hj]

/-! ### Every order of notifications -/

theorem SameOutcome.refl (s : TcpServer) : SameOutcome s s :=
  ⟨fun _ => rfl, fun _ _ => Iff.rfl, rfl⟩

theorem SameOutcome.trans {u : TcpServer} (h : SameOutcome s t) (h' : SameOutcome t u) :
    SameOutcome s u :=
  ⟨fun i => (h'.settled i).trans (h.settled i),
    fun i fd => (h'.willHaveConn i fd).trans (h.willHaveConn i fd), h'.openFds.trans h.openFds⟩

/-- No worker is notified any more. -/
def Idle (s : TcpServer) : Prop := ∀ i, s.next (.notify i) = none

variable {count : Nat}

theorem bevs_fresh_of_reachable (h : Reachable TcpServer.next (TcpServer.new count) s) :
    s.bevs s.fresh = none := by
  obtain ⟨conns, H⟩ := Invariant.of_reachable h
  exact H.wired.bevs_none s.fresh (Nat.le_refl _)

/-- A worker that is not notified has left its loop, or has an empty pipe: otherwise it would be,
and the notification would not fault. -/
theorem Idle.duty_cases (hidle : s.Idle) (h : Reachable TcpServer.next (TcpServer.new count) s)
    {i : Nat} {duty : List Int × Bool} (hduty : s.duty i = some duty) :
    duty.2 = false ∨ duty.1 = [] := by
  obtain ⟨u, hu, rfl⟩ := Option.map_eq_some_iff.mp hduty
  by_contra hbusy
  obtain ⟨hloops, hpipe⟩ : u.looping = true ∧ u.pipe ≠ [] := by simpa using hbusy
  have henabled : s.enabled (.notify i) = true := by
    simp [enabled, loops, hu, hloops, hpipe]
  obtain ⟨conns, H⟩ := Invariant.of_reachable h
  obtain ⟨t, -, ht, -⟩ := H.step henabled (by simp)
  have hnone := hidle i
  rw [next, if_pos henabled, ht] at hnone
  cases hnone

/-- A run of notifications. -/
theorem sameOutcome_of_run {is : List Nat}
    (h : Reachable TcpServer.next (TcpServer.new count) s)
    (hrun : run TcpServer.next s (is.map .notify) = some t) :
    SameOutcome s t ∧ is.length + t.noticeCount = s.noticeCount := by
  induction is generalizing s with
  | nil =>
    obtain rfl : s = t := Option.some.inj hrun
    exact ⟨.refl s, Nat.zero_add _⟩
  | cons i is ih =>
    obtain ⟨u, hu, hrun⟩ := Option.bind_eq_some_iff.mp hrun
    obtain ⟨hsame, hcount⟩ := ih (h.trans (.of_step hu)) hrun
    refine ⟨(sameOutcome_notify (bevs_fresh_of_reachable h) hu).trans hsame, ?_⟩
    rw [← noticeCount_notify hu, List.length_cons]
    omega

theorem exists_idle (s : TcpServer) :
    ∃ (is : List Nat) (t : TcpServer),
      run TcpServer.next s (is.map .notify) = some t ∧ t.Idle := by
  have hdec (s : TcpServer) (a : TcpAction) (t : TcpServer) (ha : a ∈ Set.range TcpAction.notify)
      (_ : True) (hst : s.next a = some t) : True ∧ t.noticeCount < s.noticeCount := by
    obtain ⟨i, rfl⟩ := ha
    have hcount := noticeCount_notify hst
    exact ⟨trivial, by omega⟩
  obtain ⟨as, t, has, hrun, hstuck⟩ := exists_stuck hdec (s := s) trivial
  obtain ⟨is, rfl⟩ : as ∈ Set.range (List.map TcpAction.notify) := by
    rw [Set.range_list_map]
    exact has
  exact ⟨is, t, hrun, fun i => hstuck _ ⟨i, rfl⟩⟩

/-- **The order of the notifications does not matter.** From every state that the server can reach,
the workers can be notified until none of them is notified any more; no order in which they are has
more notifications than the pipes ask for. When it is over, there were just as many, each worker has
a connection for the descriptors that were in front of the first `EXIT_CODE` in its pipe besides
those it had, the rest is still in the pipe, a worker that has found `EXIT_CODE` has left its loop,
and no descriptor was closed. -/
theorem handover_of_reachable (h : Reachable TcpServer.next (TcpServer.new count) s) :
    (∃ (is : List Nat) (t : TcpServer), run TcpServer.next s (is.map .notify) = some t ∧ t.Idle) ∧
      ∀ (is : List Nat) (t : TcpServer), run TcpServer.next s (is.map .notify) = some t →
        is.length ≤ s.noticeCount ∧
          (t.Idle → is.length = s.noticeCount ∧ (∀ i, t.duty i = (s.duty i).map settled) ∧
            (∀ i fd, t.HasConn i fd ↔
              s.HasConn i fd ∨ ∃ duty, s.duty i = some duty ∧ fd ∈ upcoming duty) ∧
            t.openFds = s.openFds) := by
  refine ⟨exists_idle s, fun is t hrun => ?_⟩
  obtain ⟨hsame, hcount⟩ := sameOutcome_of_run h hrun
  refine ⟨by omega, fun hidle => ?_⟩
  have hsettled (i : Nat) (duty : List Int × Bool) (hduty : t.duty i = some duty) :=
    settled_of_idle (hidle.duty_cases (h.trans ⟨_, hrun⟩) hduty)
  have hzero : t.noticeCount = 0 := by
    refine Finset.sum_eq_zero fun i _ => ?_
    cases hduty : t.duty i with
    | none => rfl
    | some duty => exact (hsettled i duty hduty).2.2
  refine ⟨by omega, fun i => ?_, fun i fd => ?_, hsame.openFds⟩
  · rw [← hsame.settled i]
    cases hduty : t.duty i with
    | none => rfl
    | some duty => rw [Option.map_some, (hsettled i duty hduty).1]
  · have hnone : ¬ ∃ duty, t.duty i = some duty ∧ fd ∈ upcoming duty := by
      rintro ⟨duty, hduty, hfd⟩
      rw [(hsettled i duty hduty).2.1] at hfd
      cases hfd
    refine Iff.trans ?_ (hsame.willHaveConn i fd)
    rw [WillHaveConn, or_iff_left hnone]

/-- A connection that is accepted after `quit` stays in the pipe; the two before it are set up. -/
theorem handover_acceptAfterQuit :
    ∃ s, run TcpServer.next (TcpServer.new 2) [.accept 5, .accept 6, .quit, .accept 7] = some s ∧
      ∃ (is : List Nat) (t : TcpServer), run TcpServer.next s (is.map .notify) = some t ∧
        is.length = 4 ∧ t.duty 0 = some ([7], false) ∧ t.HasConn 0 6 := by
  have hrun : ((run TcpServer.next (TcpServer.new 2)
      [.accept 5, .accept 6, .quit, .accept 7]).map fun s => (s.noticeCount, s.duty 0)) =
        some (4, some ([5, 6, exitCode, 7], true)) := by decide +kernel
  obtain ⟨s, hs, hview⟩ := Option.map_eq_some_iff.mp hrun
  simp only [Prod.mk.injEq] at hview
  obtain ⟨⟨is, t, ht, hidle⟩, hall⟩ := handover_of_reachable ⟨_, hs⟩
  obtain ⟨hlength, hduty, hconn, -⟩ := (hall is t ht).2 hidle
  refine ⟨s, hs, is, t, ht, hlength.trans hview.1, ?_, ?_⟩
  · rw [hduty, hview.2]
    decide
  · exact (hconn 0 6).mpr (Or.inr ⟨_, hview.2, by decide⟩)

end TcpServer

end MRpc
