import MRpc.Lib.Machine

/-!
# Simulation between machines

One machine simulates another one when every step of the second is matched by a run of the first,
which may be empty or have several steps. What holds of every reachable state of the first machine
then holds of the second, read through the relation between their states.

## Main results

* `Machine.Reachable.trans`: a run after a run.
* `Machine.Reachable.simulate`: every run is matched by a run of the other machine.
* `Machine.exists_simulation`: the same for the runs of permitted steps.
* `Machine.Reachable.map`: the same where the related state is computed.
* `Machine.length_le_of_run`, `Machine.exists_stuck`: runs that use up a measure are bounded, and go
  on until nothing is possible any more.
-/

namespace Machine

variable {σ τ α β : Type*} {step : σ → α → Option σ} {step' : τ → β → Option τ}

theorem Reachable.of_step {s t : σ} {a : α} (h : step s a = some t) : Reachable step s t :=
  ⟨[a], by rw [run, h, Option.bind_some, run]⟩

theorem Reachable.trans {s t u : σ} (h : Reachable step s t) (h' : Reachable step t u) :
    Reachable step s u := by
  obtain ⟨as, has⟩ := h
  obtain ⟨bs, hbs⟩ := h'
  exact ⟨as ++ bs, by rw [run_append, has, Option.bind_some, hbs]⟩

/-- **Simulation of runs.** If a run of `step'` matches every step of `step`, from related states to
related states, then a run of `step'` matches every run of `step`. -/
theorem Reachable.simulate {R : σ → τ → Prop}
    (hsim : ∀ s a s' t, R s t → step s a = some s' → ∃ t', Reachable step' t t' ∧ R s' t')
    {s s' : σ} {t : τ} (hR : R s t) (h : Reachable step s s') :
    ∃ t', Reachable step' t t' ∧ R s' t' := by
  refine h.invariant (P := fun s => ∃ t', Reachable step' t t' ∧ R s t') ?_ ⟨t, .refl t, hR⟩
  rintro u a v ⟨w, hw, hR⟩ huv
  obtain ⟨w', hw', hR'⟩ := hsim u a v w hR huv
  exact ⟨w', hw.trans hw', hR'⟩

section Permitted

variable {Q : σ → α → σ → Prop} {C : σ → Prop}
  (hback : ∀ s a s', Q s a s' → step s a = some s' → C s' → C s)

include hback in
/-- A property of the last state that every earlier state shares. -/
theorem of_run_of_backward {s s' : σ} {as : List α} (h : run step s as = some s')
    (hQ : EachStep step Q s as) (hC : C s') : C s := by
  induction as generalizing s with
  | nil =>
    obtain rfl : s = s' := Option.some.inj h
    exact hC
  | cons a as ih =>
    obtain ⟨u, hu, hrun⟩ := Option.bind_eq_some_iff.mp h
    obtain ⟨hQu, hQrest⟩ := (eachStep_cons hu).mp hQ
    exact hback s a u hQu hu (ih hrun hQrest)

include hback in
/-- The simulation of a run whose steps all satisfy `Q` and that ends in a state with `C`, where `C`
holds of every earlier state as well. -/
theorem exists_simulation {R : σ → τ → Prop}
    (hsim : ∀ s a s' t, Q s a s' → C s' → R s t → step s a = some s' →
      ∃ t', Reachable step' t t' ∧ R s' t')
    {s s' : σ} {t : τ} {as : List α} (hR : R s t) (h : run step s as = some s')
    (hQ : EachStep step Q s as) (hC : C s') : ∃ t', Reachable step' t t' ∧ R s' t' := by
  induction as generalizing s t with
  | nil =>
    obtain rfl : s = s' := Option.some.inj h
    exact ⟨t, .refl t, hR⟩
  | cons a as ih =>
    obtain ⟨u, hu, hrun⟩ := Option.bind_eq_some_iff.mp h
    obtain ⟨hQu, hQrest⟩ := (eachStep_cons hu).mp hQ
    obtain ⟨v, hv, hRv⟩ := hsim s a u t hQu (of_run_of_backward hback hrun hQrest hC) hR hu
    obtain ⟨t', ht', hR'⟩ := ih hRv hrun hQrest
    exact ⟨t', hv.trans ht', hR'⟩

end Permitted

/-- A map of states that takes steps to runs takes runs to runs. -/
theorem Reachable.map {f : σ → τ}
    (hsim : ∀ s a s', step s a = some s' → Reachable step' (f s) (f s')) {s s' : σ}
    (h : Reachable step s s') : Reachable step' (f s) (f s') := by
  obtain ⟨t, ht, rfl⟩ := h.simulate (R := fun s t => f s = t)
    (fun s a s' t hst hstep => ⟨f s', hst ▸ hsim s a s' hstep, rfl⟩) rfl
  exact ht

/-! ### Runs that end -/

section Measure

variable {Q : α → Prop} {μ : σ → Nat} {I : σ → Prop}
  (hdec : ∀ s a t, Q a → I s → step s a = some t → I t ∧ μ t < μ s)

include hdec in
/-- A run of actions that each use up some of a measure is no longer than the measure. -/
theorem length_le_of_run {s t : σ} {as : List α} (hI : I s) (has : ∀ a ∈ as, Q a)
    (h : run step s as = some t) : I t ∧ as.length + μ t ≤ μ s := by
  induction as generalizing s with
  | nil =>
    obtain rfl : s = t := Option.some.inj h
    exact ⟨hI, by simp⟩
  | cons a as ih =>
    obtain ⟨u, hu, hrun⟩ := Option.bind_eq_some_iff.mp h
    obtain ⟨hIu, hlt⟩ := hdec s a u (has a (by simp)) hI hu
    obtain ⟨hIt, hle⟩ := ih hIu (fun b hb => has b (by simp [hb])) hrun
    refine ⟨hIt, ?_⟩
    rw [List.length_cons]
    omega

include hdec in
/-- Such a run can go on until none of these actions is possible. -/
theorem exists_stuck {s : σ} (hI : I s) : ∃ as t, (∀ a ∈ as, Q a) ∧ run step s as = some t ∧
    ∀ a, Q a → step t a = none := by
  induction hn : μ s using Nat.strongRecOn generalizing s with
  | _ n ih =>
    by_cases hstuck : ∀ a, Q a → step s a = none
    · exact ⟨[], s, by simp, rfl, hstuck⟩
    push Not at hstuck
    obtain ⟨a, ha, hne⟩ := hstuck
    obtain ⟨t, ht⟩ := Option.ne_none_iff_exists'.mp hne
    obtain ⟨hIt, hlt⟩ := hdec s a t ha hI ht
    obtain ⟨as, u, has, hrun, hu⟩ := ih (μ t) (hn ▸ hlt) hIt rfl
    refine ⟨a :: as, u, ?_, by rw [run, ht, Option.bind_some, hrun], hu⟩
    intro b hb
    rcases List.mem_cons.mp hb with rfl | hb
    · exact ha
    · exact has b hb

end Measure

end Machine
