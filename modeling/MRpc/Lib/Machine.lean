import MRpc.Lib.History

/-!
# Runs of a machine

A machine is a function `step : σ → α → Option σ` that takes a state and an action to the next
state, and to `none` where the action is not possible. A run is a list of actions.

## Main definitions

* `Machine.run`: the state after a list of actions.
* `Machine.Reachable`: the states that some list of actions leads to.
* `Machine.EachStep`, `Machine.Throughout`: a property of every step of a run, and of every state
  on its way.

## Main results

* `Machine.run_append`: a run after a run.
* `Machine.exists_run_of_always`: a run of permitted actions is possible.
* `Machine.run_invariant`, `Machine.Reachable.invariant`: what every step preserves holds at the
  end of every run.
* `Machine.Reachable.invariant_of_backward`: the same for the runs that end in a state with a
  property that every earlier state shares.
* `Machine.eachStep_iff_always`, `Machine.eachStep_iff_forall`: a property of steps that is decided
  by the actions so far, or by the action alone.
* `Machine.throughout_iff_eachStep`: a property of states that a step keeps exactly under a
  condition.
-/

namespace Machine

variable {σ α : Type*} (step : σ → α → Option σ)

/-- The state after a list of actions, `none` if one of them is not possible. -/
def run : σ → List α → Option σ
  | s, [] => some s
  | s, a :: as => (step s a).bind fun t => run t as

/-- The states that a list of actions leads to from `s₀`. -/
def Reachable (s₀ s : σ) : Prop := ∃ as, run step s₀ as = some s

/-- Every step that a list of actions makes from `s₀` satisfies `Q`. -/
def EachStep (Q : σ → α → σ → Prop) (s₀ : σ) (as : List α) : Prop :=
  ∀ before a after s t, as = before ++ a :: after → run step s₀ before = some s →
    step s a = some t → Q s a t

/-- Every state that a list of actions passes from `s₀`, the first and the last included, satisfies
`P`. -/
def Throughout (P : σ → Prop) (s₀ : σ) (as : List α) : Prop :=
  ∀ before after s, as = before ++ after → run step s₀ before = some s → P s

variable {step}

theorem run_append (s : σ) (as bs : List α) :
    run step s (as ++ bs) = (run step s as).bind fun t => run step t bs := by
  induction as generalizing s with
  | nil => rfl
  | cons a as ih =>
    rw [List.cons_append, run, run, Option.bind_assoc]
    exact congrArg _ (funext ih)

theorem run_concat (s : σ) (as : List α) (a : α) :
    run step s (as ++ [a]) = (run step s as).bind fun t => step t a := by
  rw [run_append]
  refine congrArg _ (funext fun t => ?_)
  rw [run]
  exact Option.bind_fun_some _

/-- A run is possible if each of its actions is possible in every state. -/
theorem exists_run {as : List α} (h : ∀ a ∈ as, ∀ s, ∃ t, step s a = some t) (s : σ) :
    ∃ t, run step s as = some t := by
  induction as generalizing s with
  | nil => exact ⟨s, rfl⟩
  | cons a as ih =>
    obtain ⟨u, hu⟩ := h a (by simp) s
    obtain ⟨t, ht⟩ := ih (fun b hb => h b (by simp [hb])) u
    exact ⟨t, by rw [run, hu, Option.bind_some, ht]⟩

/-- A run whose actions are all permitted by the actions before them is possible, and keeps an
invariant that depends on the actions so far. -/
theorem exists_run_of_always {P : List α → σ → Prop} {Q : List α → α → Prop} {s : σ} {as : List α}
    (hs : P [] s)
    (hstep : ∀ before a t, P before t → Q before a → ∃ u, step t a = some u ∧ P (before ++ [a]) u)
    (h : History.Always Q as) : ∃ t, run step s as = some t ∧ P as t := by
  induction as using List.reverseRecOn with
  | nil => exact ⟨s, rfl, hs⟩
  | append_singleton as a ih =>
    obtain ⟨has, ha⟩ := History.always_concat.mp h
    obtain ⟨t, hrun, ht⟩ := ih has
    obtain ⟨u, hu, hP⟩ := hstep as a t ht ha
    exact ⟨u, by rw [run_concat, hrun, Option.bind_some, hu], hP⟩

/-- What every step preserves is preserved by every run. -/
theorem run_invariant {P : σ → Prop} (hstep : ∀ s a t, P s → step s a = some t → P t)
    {s t : σ} {as : List α} (hs : P s) (h : run step s as = some t) : P t := by
  induction as generalizing s with
  | nil =>
    obtain rfl : s = t := Option.some.inj h
    exact hs
  | cons a as ih =>
    obtain ⟨u, hu, hrun⟩ := Option.bind_eq_some_iff.mp h
    exact ih (hstep s a u hs hu) hrun

theorem Reachable.refl (s : σ) : Reachable step s s := ⟨[], rfl⟩

theorem Reachable.invariant {P : σ → Prop} (hstep : ∀ s a t, P s → step s a = some t → P t)
    {s t : σ} (hs : P s) (h : Reachable step s t) : P t := by
  obtain ⟨as, hrun⟩ := h
  exact run_invariant hstep hs hrun

/-- An invariant that is preserved by the steps into states with `C`, where `C` holds of every
earlier state as well. -/
theorem Reachable.invariant_of_backward {P C : σ → Prop}
    (hback : ∀ s a t, step s a = some t → C t → C s)
    (hstep : ∀ s a t, P s → C t → step s a = some t → P t)
    {s t : σ} (hs : P s) (h : Reachable step s t) (hC : C t) : P t := by
  refine h.invariant (P := fun t => C t → P t) (fun s a t ih hst hCt => ?_) (fun _ => hs) hC
  exact hstep s a t (ih (hback s a t hst hCt)) hCt hst

/-! ### Every step of a run -/

variable {Q : σ → α → σ → Prop}

theorem eachStep_cons {s t : σ} {a : α} {as : List α} (h : step s a = some t) :
    EachStep step Q s (a :: as) ↔ Q s a t ∧ EachStep step Q t as := by
  constructor
  · intro H
    refine ⟨H [] a as s t rfl rfl h, fun before b after u v heq hrun hstep => ?_⟩
    refine H (a :: before) b after u v (by rw [heq, List.cons_append]) ?_ hstep
    rw [run, h, Option.bind_some, hrun]
  · rintro ⟨hQ, H⟩ (_ | ⟨a', before⟩) b after u v heq hrun hstep
    · obtain ⟨rfl, rfl⟩ := List.cons.inj heq
      obtain rfl : s = u := Option.some.inj hrun
      obtain rfl : t = v := Option.some.inj (h.symm.trans hstep)
      exact hQ
    · obtain ⟨rfl, rfl⟩ := List.cons.inj heq
      rw [run, h, Option.bind_some] at hrun
      exact H before b after u v rfl hrun hstep

/-- A run up to one of its actions, and the step that this action makes. -/
theorem exists_step_of_run {s t : σ} {before after : List α} {a : α}
    (h : run step s (before ++ a :: after) = some t) :
    ∃ u v, run step s before = some u ∧ step u a = some v ∧ run step v after = some t := by
  rw [run_append] at h
  obtain ⟨u, hu, hrest⟩ := Option.bind_eq_some_iff.mp h
  obtain ⟨v, hv, hafter⟩ := Option.bind_eq_some_iff.mp hrest
  exact ⟨u, v, hu, hv, hafter⟩

/-- A property of steps that the actions so far decide. -/
theorem eachStep_iff_always {P : List α → α → Prop} {s t : σ} {as : List α}
    (hQ : ∀ before a u v, run step s before = some u → step u a = some v → (Q u a v ↔ P before a))
    (h : run step s as = some t) : EachStep step Q s as ↔ History.Always P as := by
  constructor
  · rintro H before a after rfl
    obtain ⟨u, v, hu, hv, -⟩ := exists_step_of_run h
    exact (hQ before a u v hu hv).mp (H before a after u v rfl hu hv)
  · intro H before a after u v heq hu hv
    exact (hQ before a u v hu hv).mpr (H before a after heq)

/-- A property of steps that the action alone decides. -/
theorem eachStep_iff_forall {P : α → Prop} (hQ : ∀ s a t, step s a = some t → (Q s a t ↔ P a))
    {s t : σ} {as : List α} (h : run step s as = some t) :
    EachStep step Q s as ↔ ∀ a ∈ as, P a := by
  rw [eachStep_iff_always (P := fun _ a => P a) (fun _ a u v _ hv => hQ u a v hv) h]
  exact History.always_iff_forall

/-! ### Every state of a run -/

/-- A property that holds at the start, and that a step keeps exactly when `C` holds of it. -/
theorem throughout_iff_eachStep {P : σ → Prop} {C : σ → α → Prop} {s₀ : σ} {as : List α}
    (hs : P s₀) (hstep : ∀ s a t, a ∈ as → Reachable step s₀ s → P s → step s a = some t →
      (P t ↔ C s a)) :
    Throughout step P s₀ as ↔ EachStep step (fun s a _ => C s a) s₀ as := by
  constructor
  · rintro H before a after s t rfl hrun hst
    have hPs : P s := H before (a :: after) s rfl hrun
    have hPt : P t := H (before ++ [a]) after t (by simp) (by rw [run_concat, hrun]; exact hst)
    exact (hstep s a t (by simp) ⟨before, hrun⟩ hPs hst).mp hPt
  · intro H before
    induction before using List.reverseRecOn with
    | nil =>
      intro after s _ hrun
      obtain rfl := Option.some.inj hrun
      exact hs
    | append_singleton before a ih =>
      intro after t heq hrun
      rw [List.append_assoc, List.singleton_append] at heq
      rw [run_concat] at hrun
      obtain ⟨s, hrun, hst⟩ := Option.bind_eq_some_iff.mp hrun
      have hmem : a ∈ as := by simp [heq]
      exact (hstep s a t hmem ⟨before, hrun⟩ (ih _ s heq hrun) hst).mpr
        (H before a after s t heq hrun hst)

end Machine
