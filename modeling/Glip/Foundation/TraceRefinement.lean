import Glip.Foundation.Transducer

/-! Transition systems with events and silent steps, and machines whose runs are runs of such a system. -/
namespace Glip.Foundation
variable {σ τ ι ε : Type}

/-- The runs of a system with the events on them; a step without an event leaves no trace. -/
inductive Runs (step : σ → Option ε → σ → Prop) : σ → List ε → σ → Prop where
  | refl (s : σ) : Runs step s [] s
  | silent {s t u : σ} {es : List ε} (h : step s none t) (hrest : Runs step t es u) : Runs step s es u
  | event {s t u : σ} {e : ε} {es : List ε} (h : step s (some e) t) (hrest : Runs step t es u) :
      Runs step s (e :: es) u

namespace Runs
variable {step : σ → Option ε → σ → Prop} {s t u : σ} {e : ε} {es es' : List ε}

theorem one (h : step s (some e) t) : Runs step s [e] t := .event h (.refl t)

theorem quiet (h : step s none t) : Runs step s [] t := .silent h (.refl t)

theorem trans (h : Runs step s es t) (h' : Runs step t es' u) : Runs step s (es ++ es') u := by
  induction h with
  | refl => exact h'
  | silent hstep _ ih => exact .silent hstep (ih h')
  | event hstep _ ih => exact .event hstep (ih h')

/-- What holds of the events so far and the state, and is kept by every step. -/
theorem history {I : List ε → σ → Prop} (hquiet : ∀ es s t, I es s → step s none t → I es t)
    (hevent : ∀ es s e t, I es s → step s (some e) t → I (es ++ [e]) t)
    (hrun : Runs step s es' t) (h : I es s) : I (es ++ es') t := by
  induction hrun generalizing es with
  | refl => rwa [List.append_nil]
  | silent hstep _ ih => exact ih (hquiet _ _ _ h hstep)
  | event hstep _ ih =>
    rw [List.append_cons]
    exact ih (hevent _ _ _ _ h hstep)

end Runs

/-- A machine each of whose steps on the inputs is a run of the system, with states that correspond. -/
theorem Transducer.refines {m : Transducer σ ι ε} {step : τ → Option ε → τ → Prop} {R : σ → τ → Prop}
    (ins : List ι)
    (hstep : ∀ i ∈ ins, ∀ s t, R s t → ∃ t', Runs step t (m.emit s i) t' ∧ R (m.next s i) t')
    {s : σ} {t : τ} (hR : R s t) :
    ∃ t', Runs step t (m.emitted s ins) t' ∧ R (m.after s ins) t' := by
  induction ins generalizing s t with
  | nil => exact ⟨t, .refl t, hR⟩
  | cons i ins ih =>
    obtain ⟨u, hrun, hu⟩ := hstep i (.head ins) s t hR
    obtain ⟨v, hrest, hv⟩ := ih (fun j hj => hstep j (.tail i hj)) hu
    exact ⟨v, hrun.trans hrest, hv⟩

end Glip.Foundation
