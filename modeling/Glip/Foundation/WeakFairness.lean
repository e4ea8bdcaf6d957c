import Mathlib.Data.Prod.Lex
import Mathlib.Tactic.Common

/-! Runs without an end in which what stays possible happens at some time. -/
namespace Glip.Foundation

/-- What is possible at all times from some time on happens after it. -/
def WeaklyFair (enabled occurs : ℕ → Prop) : Prop :=
  ∀ i, (∀ j ≥ i, enabled j) → ∃ j ≥ i, occurs j

/-- A goal is reached if what has to happen stays possible until then, and a rank that nothing raises gets
lower each time that it does happen. -/
theorem WeaklyFair.reaches {enabled occurs goal : ℕ → Prop} (h : WeaklyFair enabled occurs) {β : Type}
    {lower : β → β → Prop} (hwf : WellFounded lower) (rank : ℕ → β) (i : ℕ)
    (henabled : ∀ j ≥ i, ¬goal j → enabled j)
    (hrank : ∀ j ≥ i, ¬goal j → lower (rank (j + 1)) (rank j) ∨ (rank (j + 1) = rank j ∧ ¬occurs j)) :
    ∃ j ≥ i, goal j := by
  generalize hx : rank i = x
  induction x using hwf.induction generalizing i with
  | _ x ih =>
    by_contra hno
    have hnever : ∀ j ≥ i, ¬goal j := fun j hj hg => hno ⟨j, hj, hg⟩
    obtain ⟨j, hj, hocc⟩ := h i fun j hj => henabled j hj (hnever j hj)
    obtain ⟨d, rfl⟩ := Nat.exists_eq_add_of_le hj
    clear hj
    -- the first step that lowers the rank is not behind this one
    have hfirst : ∀ d k, k ≥ i → rank k = x → occurs (k + d) → ∃ j ≥ i, goal j := by
      intro d
      induction d with
      | zero =>
        intro k hk hrk hocc
        rcases hrank k hk (hnever k hk) with hlow | ⟨-, hno⟩
        · obtain ⟨j, hj, hg⟩ := ih _ (hrk ▸ hlow) (k + 1) (fun j hj => henabled j (by omega))
            (fun j hj => hrank j (by omega)) rfl
          exact ⟨j, by omega, hg⟩
        · exact (hno hocc).elim
      | succ d ihd =>
        intro k hk hrk hocc
        rcases hrank k hk (hnever k hk) with hlow | ⟨hsame, -⟩
        · obtain ⟨j, hj, hg⟩ := ih _ (hrk ▸ hlow) (k + 1) (fun j hj => henabled j (by omega))
            (fun j hj => hrank j (by omega)) rfl
          exact ⟨j, by omega, hg⟩
        · exact ihd (k + 1) (by omega) (hsame.trans hrk) (by rwa [Nat.add_right_comm])
    exact hno (hfirst d i le_rfl hx hocc)

/-- From states each of which has a next one there is a run. -/
theorem exists_run {σ : Type} {step : σ → σ → Prop} {good : σ → Prop}
    (h : ∀ s, good s → ∃ t, step s t ∧ good t) {s : σ} (hs : good s) :
    ∃ f : ℕ → σ, f 0 = s ∧ ∀ i, step (f i) (f (i + 1)) ∧ good (f i) := by
  choose! next hnext using h
  have hgood : ∀ i, good (next^[i] s) := by
    intro i
    induction i with
    | zero => exact hs
    | succ i ih =>
      rw [Function.iterate_succ_apply']
      exact (hnext _ ih).2
  refine ⟨fun i => next^[i] s, rfl, fun i => ⟨?_, hgood i⟩⟩
  dsimp only
  rw [Function.iterate_succ_apply']
  exact (hnext _ (hgood i)).1

end Glip.Foundation
