import Mathlib.Data.Option.Basic
import Mathlib.Tactic.Common

/-! Systems of several parties: a step that cannot happen in a state has no result. -/
namespace Glip.Foundation

structure Guarded (σ ι : Type) where
  step : σ → ι → Option σ

namespace Guarded
variable {σ ι : Type} (m : Guarded σ ι)

def run : σ → List ι → Option σ
  | s, [] => some s
  | s, i :: is => (m.step s i).bind fun s' => run s' is

def Each (allowed : σ → ι → Prop) : σ → List ι → Prop
  | _, [] => True
  | s, i :: is => allowed s i ∧ ∀ s', m.step s i = some s' → Each allowed s' is

variable {m} {s s' : σ} {is : List ι} {P Q : σ → Prop} {allowed required : σ → ι → Prop}

theorem run_cons_iff {i : ι} : m.run s (i :: is) = some s' ↔ ∃ s₁, m.step s i = some s₁ ∧ m.run s₁ is = some s' :=
  Option.bind_eq_some_iff

theorem each_cons {i : ι} {s₁ : σ} (h : m.step s i = some s₁) :
    m.Each allowed s (i :: is) ↔ allowed s i ∧ m.Each allowed s₁ is := by
  rw [Each, h]
  apply and_congr_right
  intro _
  constructor
  · intro hall
    exact hall s₁ rfl
  · rintro hall s₂ h₂
    cases h₂
    exact hall

instance decidableEach [∀ s i, Decidable (allowed s i)] : (s : σ) → (is : List ι) → Decidable (m.Each allowed s is)
  | _, [] => instDecidableTrue
  | s, i :: is =>
    match h : m.step s i with
    | none => decidable_of_iff (allowed s i) (by simp [Each, h])
    | some s₁ =>
      have : Decidable (m.Each allowed s₁ is) := decidableEach s₁ is
      decidable_of_iff _ (each_cons h).symm

theorem each_of_forall (h : ∀ s i, allowed s i) (s : σ) (is : List ι) : m.Each allowed s is := by
  induction is generalizing s with
  | nil => trivial
  | cons i is ih => exact ⟨h s i, fun s' _ => ih s'⟩

/-- What every allowed step preserves is there after a run of allowed steps. -/
theorem run_keeps (hstep : ∀ s i s', P s → allowed s i → m.step s i = some s' → P s') (hs : P s)
    (hall : m.Each allowed s is) (hrun : m.run s is = some s') : P s' := by
  induction is generalizing s with
  | nil =>
    cases hrun
    exact hs
  | cons i is ih =>
    obtain ⟨s₁, h, hrest⟩ := run_cons_iff.mp hrun
    exact ih (hstep s i s₁ hs hall.1 h) (hall.2 s₁ h) hrest

theorem run_invariant (hstep : ∀ s i s', P s → m.step s i = some s' → P s') (hs : P s) (hrun : m.run s is = some s') :
    P s' := by
  have hall : m.Each (fun _ _ => True) s is := each_of_forall (fun _ _ => trivial) s is
  exact run_keeps (fun s i s' h _ => hstep s i s' h) hs hall hrun

/-- If a step leads to a state in `Q` exactly if it is allowed, then a run stays in `Q` exactly if its steps are allowed. -/
theorem each_iff (hkeep : ∀ s i s', P s → allowed s i → m.step s i = some s' → P s')
    (hexact : ∀ s i s', P s → m.step s i = some s' → (Q s' ↔ allowed s i)) (hs : P s) (hQ : Q s)
    (hrun : (m.run s is).isSome) :
    (∀ k s', m.run s (is.take k) = some s' → Q s') ↔ m.Each allowed s is := by
  induction is generalizing s with
  | nil =>
    refine ⟨fun _ => trivial, fun _ k s' h => ?_⟩
    rw [List.take_nil] at h
    cases h
    exact hQ
  | cons i is ih =>
    obtain ⟨s', hs'⟩ := Option.isSome_iff_exists.mp hrun
    obtain ⟨s₁, h, hrest⟩ := run_cons_iff.mp hs'
    have hafter : (m.run s₁ is).isSome := Option.isSome_iff_exists.mpr ⟨s', hrest⟩
    constructor
    · intro hall
      have hfirst : allowed s i := (hexact s i s₁ hs h).mp (hall 1 s₁ (run_cons_iff.mpr ⟨s₁, h, rfl⟩))
      refine ⟨hfirst, fun s₂ h₂ => ?_⟩
      obtain rfl : s₁ = s₂ := Option.some.inj (h.symm.trans h₂)
      apply (ih (hkeep s i s₁ hs hfirst h) ((hexact s i s₁ hs h).mpr hfirst) hafter).mp
      intro k t ht
      exact hall (k + 1) t (run_cons_iff.mpr ⟨s₁, h, ht⟩)
    · rintro ⟨hfirst, hall⟩ k t ht
      cases k with
      | zero =>
        cases ht
        exact hQ
      | succ k =>
        obtain ⟨s₂, h₂, ht⟩ := run_cons_iff.mp ht
        obtain rfl : s₁ = s₂ := Option.some.inj (h.symm.trans h₂)
        exact (ih (hkeep s i s₁ hs hfirst h) ((hexact s i s₁ hs h).mpr hfirst) hafter).mpr (hall s₁ h) k t ht

/-- Two conditions on the steps that agree in the states of a run. -/
theorem each_congr (hkeep : ∀ s i s', P s → m.step s i = some s' → P s')
    (hagree : ∀ s i s', P s → m.step s i = some s' → (allowed s i ↔ required s i)) (hs : P s)
    (hrun : (m.run s is).isSome) : m.Each allowed s is ↔ m.Each required s is := by
  induction is generalizing s with
  | nil => exact Iff.rfl
  | cons i is ih =>
    obtain ⟨s', hs'⟩ := Option.isSome_iff_exists.mp hrun
    obtain ⟨s₁, h, hrest⟩ := run_cons_iff.mp hs'
    apply and_congr (hagree s i s₁ hs h)
    apply forall_congr'
    intro s₂
    apply forall_congr'
    intro h₂
    obtain rfl : s₁ = s₂ := Option.some.inj (h.symm.trans h₂)
    exact ih (hkeep s i s₁ hs h) (Option.isSome_iff_exists.mpr ⟨s', hrest⟩)

end Guarded
end Glip.Foundation
