import Glip.Foundation.ProgramPool

/-! A thread that is one of the parties of a pool: it makes one call after the other, and between them it deals with a
world of its own. -/
namespace Glip.Foundation
variable {ι ρ σ α κ ε : Type}

/-- The calls that the code of the thread can make where it stands, how it goes on with the result of one, and what can
happen to it between them. -/
structure ThreadCode (ρ α κ ε : Type) where
  calls : κ → ρ → Bool
  after : κ → α → κ
  event : κ → ε → Option κ

structure Driven (ι ρ σ α κ : Type) where
  pool : Pool ι ρ σ α
  client : κ

namespace Driven
variable [DecidableEq ι]

def settle (code : ThreadCode ρ α κ ε) (me : ι) (c : Call ρ σ α) (s : Driven ι ρ σ α κ) : Driven ι ρ σ α κ where
  pool := s.pool.settle me c
  client := match c.rest with
    | .ret a => code.after s.client a
    | _ => s.client

inductive Step (perform : ρ → Prog σ α) (may : ι → List (Done ρ σ α) → ρ → Prop) (code : ThreadCode ρ α κ ε) (me : ι) :
    Driven ι ρ σ α κ → Driven ι ρ σ α κ → Prop where
  | other (s : Driven ι ρ σ α κ) (i : ι) (q : Pool ι ρ σ α) : i ≠ me → Pool.StepBy perform may i s.pool q →
      Step perform may code me s { s with pool := q }
  | call (s : Driven ι ρ σ α κ) (r : ρ) : code.calls s.client r = true → may me (s.pool.log me) r → s.pool.calls me = none →
      Step perform may code me s (s.settle code me ⟨r, s.pool.shared, [], perform r⟩)
  | act (s : Driven ι ρ σ α κ) (c : Call ρ σ α) (update : σ → σ) (next : σ → Prog σ α) :
      s.pool.calls me = some c → c.rest = .act update next →
      Step perform may code me s
        (settle code me { c with seen := c.seen ++ [s.pool.shared], rest := next s.pool.shared }
          { s with pool := { s.pool with shared := update s.pool.shared } })
  | event (s : Driven ι ρ σ α κ) (e : ε) (x : κ) : s.pool.calls me = none → code.event s.client e = some x →
      Step perform may code me s { s with client := x }

def start (s : σ) (x : κ) : Driven ι ρ σ α κ := ⟨.start s, x⟩

inductive Move (ι ρ ε : Type) where
  | other (i : ι) (r : Option ρ)
  | own
  | call (r : ρ)
  | event (e : ε)

def move (perform : ρ → Prog σ α) (code : ThreadCode ρ α κ ε) (me : ι)
    (s : Driven ι ρ σ α κ) : Move ι ρ ε → Option (Driven ι ρ σ α κ)
  | .other i r => if i = me then none else (s.pool.move perform (i, r)).map fun q => { s with pool := q }
  | .own => match s.pool.calls me with
    | some c => match c.rest with
      | .act update next => some
          (settle code me { c with seen := c.seen ++ [s.pool.shared], rest := next s.pool.shared }
            { s with pool := { s.pool with shared := update s.pool.shared } })
      | _ => none
    | none => none
  | .call r => match s.pool.calls me with
    | none => if code.calls s.client r then some (s.settle code me ⟨r, s.pool.shared, [], perform r⟩) else none
    | some _ => none
  | .event e => match s.pool.calls me with
    | none => (code.event s.client e).map fun x => { s with client := x }
    | some _ => none

def play (perform : ρ → Prog σ α) (code : ThreadCode ρ α κ ε) (me : ι)
    (s : Driven ι ρ σ α κ) : List (Move ι ρ ε) → Option (Driven ι ρ σ α κ)
  | [] => some s
  | m :: ms => (s.move perform code me m).bind fun t => t.play perform code me ms

section Rule
variable {perform : ρ → Prog σ α} {may : ι → List (Done ρ σ α) → ρ → Prop} {code : ThreadCode ρ α κ ε} {me : ι}
  {s t : Driven ι ρ σ α κ} {c : Call ρ σ α}

theorem settle_of_ret {a : α} (h : c.rest = .ret a) :
    s.settle code me c = ⟨s.pool.settle me c, code.after s.client a⟩ := by
  rw [settle, h]

theorem settle_of_ne_ret (h : ∀ a, c.rest ≠ .ret a) : s.settle code me c = ⟨s.pool.settle me c, s.client⟩ := by
  unfold settle
  split
  · exact (h _ ‹_›).elim
  · rfl

/-- A move whose call its party may make is a step. -/
theorem move_step {m : Move ι ρ ε}
    (hother : ∀ i r log, m = .other i (some r) → may i log r) (hcall : ∀ r log, m = .call r → may me log r)
    (h : s.move perform code me m = some t) : Step perform may code me s t := by
  cases m with
  | other i r =>
    obtain ⟨hne, h⟩ := Option.ite_none_left_eq_some.mp h
    obtain ⟨q, hq, rfl⟩ := Option.map_eq_some_iff.mp h
    exact .other s i q hne (Pool.move_stepBy (fun r' hr => hother i r' _ (by rw [hr])) hq)
  | own =>
    simp only [move] at h
    split at h
    · split at h
      · cases h
        exact .act s _ _ _ ‹_› ‹_›
      · cases h
    · cases h
  | call r =>
    simp only [move] at h
    split at h
    · obtain ⟨hr, h⟩ := Option.ite_none_right_eq_some.mp h
      cases h
      exact .call s r hr (hcall r _ rfl) ‹_›
    · cases h
  | event e =>
    simp only [move] at h
    split at h
    · obtain ⟨x, hx, rfl⟩ := Option.map_eq_some_iff.mp h
      exact .event s e x ‹_› hx
    · cases h

theorem play_run {ms : List (Move ι ρ ε)}
    (hother : ∀ i r log, .other i (some r) ∈ ms → may i log r) (hcall : ∀ r log, .call r ∈ ms → may me log r)
    (h : s.play perform code me ms = some t) : Relation.ReflTransGen (Step perform may code me) s t := by
  induction ms generalizing s with
  | nil =>
    cases h
    exact .refl
  | cons m ms ih =>
    obtain ⟨u, hm, hrest⟩ := Option.bind_eq_some_iff.mp h
    have hstep : Step perform may code me s u :=
      move_step (fun i r log hr => hother i r log (hr ▸ List.mem_cons_self))
        (fun r log hr => hcall r log (hr ▸ List.mem_cons_self)) hm
    exact .head hstep (ih (fun i r log hr => hother i r log (List.mem_cons_of_mem _ hr))
      (fun r log hr => hcall r log (List.mem_cons_of_mem _ hr)) hrest)

/-- The steps of the thread and of the others are steps of the pool. -/
theorem Step.pool (h : Step perform may code me s t) : t.pool = s.pool ∨ Pool.Step perform may s.pool t.pool := by
  cases h with
  | other i q hne hq => exact .inr hq.step
  | call r hr hmay hnone => exact .inr (.begin _ _ _ hnone hmay)
  | act c update next hc hrest => exact .inr (.act _ _ _ _ _ hc hrest)
  | event => exact .inl rfl

def Coherent (code : ThreadCode ρ α κ ε) (me : ι) (s : Driven ι ρ σ α κ) : Prop :=
  ∀ c, s.pool.calls me = some c → code.calls s.client c.request = true

/-- What holds of the data of the thread and of its calls so far, where each call that ends and each event preserves it. -/
structure Preserved (K : Contract perform may) (code : ThreadCode ρ α κ ε) (me : ι) (P : κ → List (Done ρ σ α) → Prop) :
    Prop where
  call : ∀ x log d, P x log → code.calls x d.request = true → K.Past me log d → P (code.after x d.result) (log ++ [d])
  event : ∀ x log e x', P x log → code.event x e = some x' → P x' log

variable {K : Contract perform may} {P : κ → List (Done ρ σ α) → Prop}

private theorem step_contract (hK : K.Holds s.pool) (hstep : Step perform may code me s t) : K.Holds t.pool := by
  rcases hstep.pool with heq | hpool
  · rwa [heq]
  · exact K.step_holds hpool hK

/-- A call that has been made, or has taken a step. -/
private theorem settle_preserved (hP : Preserved K code me P) (hs : P s.client (s.pool.log me))
    (hcalls : code.calls s.client c.request = true) (hK : K.Holds (s.settle code me c).pool) :
    (s.settle code me c).Coherent code me ∧ P (s.settle code me c).client ((s.settle code me c).pool.log me) := by
  by_cases hret : ∃ a, c.rest = .ret a
  · obtain ⟨a, ha⟩ := hret
    rw [settle_of_ret ha, Pool.settle_of_ret ha] at hK ⊢
    refine ⟨fun c' hc' => ?_, ?_⟩
    · dsimp only at hc'
      rw [Function.update_self] at hc'
      cases hc'
    · have hlog : Function.update s.pool.log me (s.pool.log me ++ [⟨c.request, c.origin, c.seen, a⟩]) me =
          s.pool.log me ++ [⟨c.request, c.origin, c.seen, a⟩] := Function.update_self _ _ _
      have hpast := hK.finished me _ _ [] hlog
      dsimp only
      rw [hlog]
      exact hP.call _ _ ⟨c.request, c.origin, c.seen, a⟩ hs hcalls hpast
  · rw [settle_of_ne_ret (not_exists.mp hret), Pool.settle_of_ne_ret (not_exists.mp hret)]
    refine ⟨fun c' hc' => ?_, hs⟩
    dsimp only at hc'
    rw [Function.update_self, Option.some_inj] at hc'
    subst hc'
    exact hcalls

theorem Preserved.step (hP : Preserved K code me P) (hK : K.Holds s.pool) (hc : s.Coherent code me)
    (h : P s.client (s.pool.log me)) (hstep : Step perform may code me s t) :
    t.Coherent code me ∧ P t.client (t.pool.log me) := by
  have hK' := step_contract hK hstep
  cases hstep with
  | other i q hne hq =>
    obtain ⟨hcalls, hlog⟩ := hq.others hne.symm
    refine ⟨fun c hc' => hc c ?_, ?_⟩
    · rwa [← hcalls]
    · dsimp only
      rwa [hlog]
  | call r hr hmay hnone => exact settle_preserved hP h hr hK'
  | act c update next hc' hrest =>
    exact settle_preserved (s := { s with pool := { s.pool with shared := update s.pool.shared } }) hP h (hc c hc') hK'
  | event e x hnone hx =>
    refine ⟨fun c hc' => ?_, hP.event _ _ _ _ h hx⟩
    rw [hnone] at hc'
    cases hc'

/-- So it holds in every run. -/
theorem Preserved.run (hP : Preserved K code me P) {s₀ : σ} {x : κ} (h₀ : K.inv s₀ fun _ => []) (hx : P x [])
    (hrun : Relation.ReflTransGen (Step perform may code me) (start s₀ x) s) :
    K.Holds s.pool ∧ s.Coherent code me ∧ P s.client (s.pool.log me) := by
  induction hrun with
  | refl => exact ⟨K.sound h₀ .refl, fun c hc => (by cases hc), hx⟩
  | tail _ hstep ih =>
    obtain ⟨hK, hc, h⟩ := ih
    exact ⟨step_contract hK hstep, hP.step hK hc h hstep⟩

end Rule
end Driven

/-- No call under way has crashed where the contract excludes it. -/
theorem Contract.Holds.no_fault [DecidableEq ι] {perform : ρ → Prog σ α} {may : ι → List (Done ρ σ α) → ρ → Prop}
    {K : Contract perform may} {p : Pool ι ρ σ α} (h : K.Holds p) (hcrash : ¬K.crash) {i : ι} {c : Call ρ σ α}
    (hc : p.calls i = some c) : c.rest ≠ .fault := by
  intro hfault
  obtain ⟨-, s₀, s, -, hsafe, -⟩ := h.running i c hc
  rw [hfault] at hsafe
  exact hcrash hsafe.2

/-- Two facts about how the same program goes hold together. -/
theorem Prog.Safe.and {rely stay stay' : σ → σ → Prop} {crash crash' : Prop} {fin fin' : α → σ → σ → Prop} {p : Prog σ α}
    {s₀ s : σ} (h : Safe rely stay crash fin p s₀ s) (h' : Safe rely stay' crash' fin' p s₀ s) :
    Safe rely stay crash (fun a s₀ s => fin a s₀ s ∧ fin' a s₀ s) p s₀ s := by
  induction p generalizing s₀ s with
  | ret a => exact ⟨h, h'⟩
  | fault => exact h
  | act update next ih => exact ⟨h.1, fun t ht => ih t (h.2 t ht) (h'.2 t ht)⟩

/-- A contract whose parties make fewer calls and promise more of the last step of a call, which keeps more true of the
shared state. -/
def Contract.strengthen [DecidableEq ι] {perform : ρ → Prog σ α} {may may' : ι → List (Done ρ σ α) → ρ → Prop}
    (K : Contract perform may) (hmay : ∀ i log r, may' i log r → may i log r) (J : σ → (ι → List (Done ρ σ α)) → Prop)
    (fin : ι → ρ → α → σ → σ → Prop) (hstay : ∀ i s t log, K.stay i s t → K.inv s log → J s log → J t log)
    (hfin : ∀ i s t log d, K.fin i d.request d.result s t → fin i d.request d.result s t → K.inv s log → J s log →
      J t (Function.update log i (log i ++ [d])))
    (hsafe : ∀ i r s log, K.inv s log → may' i (log i) r →
      (perform r).Safe (K.rely i) (K.stay i) K.crash (fin i r) s s) :
    Contract perform may' where
  inv s log := K.inv s log ∧ J s log
  rely := K.rely
  stay := K.stay
  fin i r a s t := K.fin i r a s t ∧ fin i r a s t
  crash := K.crash
  rely_refl := K.rely_refl
  rely_trans := K.rely_trans
  stay_rely := K.stay_rely
  fin_rely i j r a s t hij h := K.fin_rely i j r a s t hij h.1
  stay_inv i s t log h hi := ⟨K.stay_inv i s t log h hi.1, hstay i s t log h hi.1 hi.2⟩
  fin_inv i s t log d h hi := ⟨K.fin_inv i s t log d h.1 hi.1, hfin i s t log d h.1 h.2 hi.1 hi.2⟩
  safe i r s log hi hr := (K.safe i r s log hi.1 (hmay i (log i) r hr)).and (hsafe i r s log hi.1 hr)

end Glip.Foundation
