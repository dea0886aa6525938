import Mathlib.Tactic.Common
import Mathlib.Logic.Relation

/-!
# While loops

The body of a loop maps a state to a state and says whether the loop goes round once more. The
loop is run with a bound on the number of rounds taken from a measure of the state;
`eval_isSome` shows that a measure which every further round decreases is bound enough, so that
such a loop always ends by itself.

## Main definitions

* `WhileLoop.Round`: the outcome of one round.
* `WhileLoop.run`, `WhileLoop.eval`: the loop with a bound, and with the bound of a measure.
* `WhileLoop.Reaches`: the states at the head of the loop.

## Main results

* `WhileLoop.eval_isSome`: a loop with a decreasing measure ends.
* `WhileLoop.eval_again`, `WhileLoop.eval_done`: unfolding one round.
* `WhileLoop.eval_induction`: the rule for the states at the head and at the end of the loop.
* `WhileLoop.eval_lockstep`: the rule for two loops that go round together.
-/

namespace WhileLoop

variable {α : Type*}

/-- The outcome of one round: the loop ends in a state, or goes round again from it. -/
inductive Round (α : Type*)
  | done (a : α)
  | again (a : α)

/-- At most `n` rounds; `none` when the loop has not ended by then. -/
def run (body : α → Round α) : Nat → α → Option α
  | 0, _ => none
  | n + 1, a => match body a with
    | .done b => some b
    | .again b => run body n b

/-- The loop, with as many rounds as the measure of its first state allows. -/
def eval (body : α → Round α) (μ : α → Nat) (a : α) : Option α := run body (μ a + 1) a

/-- Every further round starts from a state of smaller measure. -/
def Decreasing (body : α → Round α) (μ : α → Nat) : Prop :=
  ∀ a b, body a = .again b → μ b < μ a

/-- The states that the head of the loop is reached with. -/
def Reaches (body : α → Round α) : α → α → Prop :=
  Relation.ReflTransGen fun a b => body a = .again b

variable {body : α → Round α} {μ : α → Nat} {a b : α}

theorem run_eq_run (h : Decreasing body μ) {n m : Nat} (hn : μ a < n) (hm : μ a < m) :
    run body n a = run body m a := by
  induction n generalizing a m with
  | zero => omega
  | succ n ih =>
    obtain ⟨m, rfl⟩ : ∃ k, m = k + 1 := ⟨m - 1, by omega⟩
    cases hb : body a with
    | done b => simp only [run, hb]
    | again b =>
      have hlt := h a b hb
      simp only [run, hb]
      exact ih (by omega) (by omega)

theorem eval_done (hb : body a = .done b) : eval body μ a = some b := by
  simp only [eval, run, hb]

theorem eval_again (h : Decreasing body μ) (hb : body a = .again b) :
    eval body μ a = eval body μ b := by
  have hlt := h a b hb
  calc eval body μ a = run body (μ a) b := by simp only [eval, run, hb]
    _ = eval body μ b := run_eq_run h hlt (Nat.lt_succ_self _)

/-- A property of the end of the loop follows from one that holds at its head, is kept by every
further round and gives the property in the last one. -/
theorem eval_induction (h : Decreasing body μ) {P : α → Prop} {Q : α → Prop} (ha : P a)
    (hagain : ∀ a b, P a → body a = .again b → P b)
    (hdone : ∀ a b, P a → body a = .done b → Q b) :
    ∃ b, eval body μ a = some b ∧ Q b := by
  induction hn : μ a using Nat.strongRecOn generalizing a with
  | _ n ih =>
    cases hb : body a with
    | done b => exact ⟨b, eval_done hb, hdone a b ha hb⟩
    | again b =>
      rw [eval_again h hb]
      exact ih (μ b) (hn ▸ h a b hb) (hagain a b ha hb) rfl

/-- Two loops in lockstep: as long as the first one goes round, so does the second one, and when the
first one ends, the second one ends in a state that corresponds to its last one, possibly after
further rounds. -/
theorem eval_lockstep {β : Type*} {body' : β → Round β} {μ' : β → Nat} (h : Decreasing body μ)
    (h' : Decreasing body' μ') {R Q : α → β → Prop}
    (hagain : ∀ a b a₁, R a b → body a = .again a₁ → ∃ b₁, body' b = .again b₁ ∧ R a₁ b₁)
    (hdone : ∀ a b a₁, R a b → body a = .done a₁ → ∃ b₁, eval body' μ' b = some b₁ ∧ Q a₁ b₁)
    {b : β} (hab : R a b) :
    ∃ a₁ b₁, eval body μ a = some a₁ ∧ eval body' μ' b = some b₁ ∧ Q a₁ b₁ := by
  induction hn : μ a using Nat.strongRecOn generalizing a b with
  | _ n ih =>
    cases hb : body a with
    | done a₁ =>
      obtain ⟨b₁, hb₁, hQ⟩ := hdone a b a₁ hab hb
      exact ⟨a₁, b₁, eval_done hb, hb₁, hQ⟩
    | again a₁ =>
      obtain ⟨b₁, hb₁, hR⟩ := hagain a b a₁ hab hb
      rw [eval_again h hb, eval_again h' hb₁]
      exact ih (μ a₁) (hn ▸ h a a₁ hb) hR rfl

/-- A loop with a decreasing measure ends. -/
theorem eval_isSome (h : Decreasing body μ) (a : α) : ∃ b, eval body μ a = some b := by
  obtain ⟨b, hb, -⟩ := eval_induction (Q := fun _ => True) h (P := fun _ => True) (a := a)
    trivial (fun _ _ _ _ => trivial) (fun _ _ _ _ => trivial)
  exact ⟨b, hb⟩

end WhileLoop
