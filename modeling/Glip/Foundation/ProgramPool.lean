import Glip.Foundation.AtomicProgram

/-! Any number of parties, each running one call after the other on a shared
state, with their indivisible steps interleaved in every possible order. -/
namespace Glip.Foundation
variable {ι ρ σ α : Type}

structure Done (ρ σ α : Type) where
  request : ρ
  origin : σ
  seen : List σ
  result : α

structure Call (ρ σ α : Type) where
  request : ρ
  origin : σ
  seen : List σ
  rest : Prog σ α

structure Pool (ι ρ σ α : Type) where
  shared : σ
  calls : ι → Option (Call ρ σ α)
  log : ι → List (Done ρ σ α)

namespace Pool

def start (s : σ) : Pool ι ρ σ α := ⟨s, fun _ => none, fun _ => []⟩

variable [DecidableEq ι]

def settle (i : ι) (c : Call ρ σ α) (p : Pool ι ρ σ α) : Pool ι ρ σ α :=
  match c.rest with
  | .ret a => { p with
      calls := Function.update p.calls i none
      log := Function.update p.log i (p.log i ++ [⟨c.request, c.origin, c.seen, a⟩]) }
  | _ => { p with calls := Function.update p.calls i (some c) }

/-- `code` is the program of a request; `may` says which requests a party can
make after the calls in its log. -/
inductive Step (code : ρ → Prog σ α) (may : ι → List (Done ρ σ α) → ρ → Prop) :
    Pool ι ρ σ α → Pool ι ρ σ α → Prop where
  | begin (p : Pool ι ρ σ α) (i : ι) (r : ρ) : p.calls i = none → may i (p.log i) r →
      Step code may p (p.settle i ⟨r, p.shared, [], code r⟩)
  | act (p : Pool ι ρ σ α) (i : ι) (c : Call ρ σ α) (update : σ → σ) (next : σ → Prog σ α) :
      p.calls i = some c → c.rest = .act update next →
      Step code may p ({ p with shared := update p.shared }.settle i
        { c with seen := c.seen ++ [p.shared], rest := next p.shared })

inductive StepBy (code : ρ → Prog σ α) (may : ι → List (Done ρ σ α) → ρ → Prop) (i : ι) :
    Pool ι ρ σ α → Pool ι ρ σ α → Prop where
  | begin (p : Pool ι ρ σ α) (r : ρ) : p.calls i = none → may i (p.log i) r →
      StepBy code may i p (p.settle i ⟨r, p.shared, [], code r⟩)
  | act (p : Pool ι ρ σ α) (c : Call ρ σ α) (update : σ → σ) (next : σ → Prog σ α) :
      p.calls i = some c → c.rest = .act update next →
      StepBy code may i p ({ p with shared := update p.shared }.settle i
        { c with seen := c.seen ++ [p.shared], rest := next p.shared })

theorem StepBy.step {code : ρ → Prog σ α} {may : ι → List (Done ρ σ α) → ρ → Prop} {i : ι} {p q : Pool ι ρ σ α}
    (h : StepBy code may i p q) : Step code may p q := by
  cases h with
  | begin r hnone hmay => exact .begin p i r hnone hmay
  | act c update next hc hrest => exact .act p i c update next hc hrest

theorem settle_of_ret {i : ι} {c : Call ρ σ α} {p : Pool ι ρ σ α} {a : α} (h : c.rest = .ret a) :
    p.settle i c = { p with
      calls := Function.update p.calls i none
      log := Function.update p.log i (p.log i ++ [⟨c.request, c.origin, c.seen, a⟩]) } := by
  unfold settle
  split
  · rename_i b hb
    obtain rfl : b = a := by
      rw [h] at hb
      cases hb
      rfl
    rfl
  · exact (‹∀ a, c.rest = .ret a → False› a h).elim

theorem settle_of_ne_ret {i : ι} {c : Call ρ σ α} {p : Pool ι ρ σ α} (h : ∀ a, c.rest ≠ .ret a) :
    p.settle i c = { p with calls := Function.update p.calls i (some c) } := by
  unfold settle
  split
  · exact (h _ ‹_›).elim
  · rfl

/-- A step of one party is none of another's. -/
theorem StepBy.others {code : ρ → Prog σ α} {may : ι → List (Done ρ σ α) → ρ → Prop} {i j : ι} {p q : Pool ι ρ σ α}
    (h : StepBy code may i p q) (hj : j ≠ i) : q.calls j = p.calls j ∧ q.log j = p.log j := by
  have hsettle : ∀ (p : Pool ι ρ σ α) c, (p.settle i c).calls j = p.calls j ∧ (p.settle i c).log j = p.log j := by
    intro p c
    unfold settle
    split
    · exact ⟨Function.update_of_ne hj _ _, Function.update_of_ne hj _ _⟩
    · exact ⟨Function.update_of_ne hj _ _, rfl⟩
  cases h with
  | begin => exact hsettle _ _
  | act => exact hsettle _ _

def Reachable (code : ρ → Prog σ α) (may : ι → List (Done ρ σ α) → ρ → Prop) (s : σ) :
    Pool ι ρ σ α → Prop := Relation.ReflTransGen (Step code may) (start s)

theorem Reachable.mono {code : ρ → Prog σ α} {may may' : ι → List (Done ρ σ α) → ρ → Prop} {s : σ} {p : Pool ι ρ σ α}
    (hmay : ∀ i log r, may i log r → may' i log r) (h : Reachable code may s p) : Reachable code may' s p := by
  refine Relation.ReflTransGen.mono (fun p q hstep => ?_) _ _ h
  cases hstep with
  | begin i r hnone hr => exact .begin p i r hnone (hmay i _ r hr)
  | act i c update next hc hrest => exact .act p i c update next hc hrest

def Unfinished (p : Pool ι ρ σ α) : Prop := ∀ i c, p.calls i = some c → ∀ a, c.rest ≠ .ret a

theorem Step.unfinished {code : ρ → Prog σ α} {may : ι → List (Done ρ σ α) → ρ → Prop} {p q : Pool ι ρ σ α}
    (h : Step code may p q) (hp : p.Unfinished) : q.Unfinished := by
  have hsettle : ∀ (p : Pool ι ρ σ α) i c, p.Unfinished → (p.settle i c).Unfinished := by
    intro p i c hp j c' hc' a
    by_cases hret : ∃ a, c.rest = .ret a
    · obtain ⟨b, hb⟩ := hret
      rw [settle_of_ret hb] at hc'
      dsimp only at hc'
      rcases eq_or_ne j i with rfl | hj
      · rw [Function.update_self] at hc'
        cases hc'
      · rw [Function.update_of_ne hj] at hc'
        exact hp j c' hc' a
    · rw [settle_of_ne_ret (not_exists.mp hret)] at hc'
      dsimp only at hc'
      rcases eq_or_ne j i with rfl | hj
      · rw [Function.update_self, Option.some_inj] at hc'
        subst hc'
        exact not_exists.mp hret a
      · rw [Function.update_of_ne hj] at hc'
        exact hp j c' hc' a
  cases h with
  | begin i r => exact hsettle _ _ _ hp
  | act i c update next => exact hsettle _ _ _ hp

theorem Reachable.unfinished {code : ρ → Prog σ α} {may : ι → List (Done ρ σ α) → ρ → Prop} {s : σ}
    {p : Pool ι ρ σ α} (h : Reachable code may s p) : p.Unfinished := by
  induction h with
  | refl => exact fun _ _ hc => by cases hc
  | tail _ hstep ih => exact hstep.unfinished ih

def move (code : ρ → Prog σ α) (p : Pool ι ρ σ α) : ι × Option ρ → Option (Pool ι ρ σ α)
  | (i, some r) => match p.calls i with
    | none => some (p.settle i ⟨r, p.shared, [], code r⟩)
    | some _ => none
  | (i, none) => match p.calls i with
    | some c => match c.rest with
      | .act update next => some ({ p with shared := update p.shared }.settle i
          { c with seen := c.seen ++ [p.shared], rest := next p.shared })
      | _ => none
    | none => none

theorem move_stepBy {code : ρ → Prog σ α} {may : ι → List (Done ρ σ α) → ρ → Prop} {i : ι} {r : Option ρ}
    {p q : Pool ι ρ σ α} (hmay : ∀ r', r = some r' → may i (p.log i) r') (h : p.move code (i, r) = some q) :
    StepBy code may i p q := by
  cases r with
  | none =>
    unfold move at h
    dsimp only at h
    split at h
    · split at h
      · obtain rfl := Option.some_inj.mp h
        exact .act p _ _ _ ‹_› ‹_›
      · cases h
    · cases h
  | some r =>
    unfold move at h
    dsimp only at h
    split at h
    · obtain rfl := Option.some_inj.mp h
      exact .begin p r ‹_› (hmay r rfl)
    · cases h

def play (code : ρ → Prog σ α) (p : Pool ι ρ σ α) : List (ι × Option ρ) → Option (Pool ι ρ σ α)
  | [] => some p
  | m :: ms => (p.move code m).bind fun q => q.play code ms

theorem play_reachable {code : ρ → Prog σ α} {may : ι → List (Done ρ σ α) → ρ → Prop} {s : σ}
    {p q : Pool ι ρ σ α} {ms : List (ι × Option ρ)} (hp : Reachable code may s p)
    (hmay : ∀ i r, (i, some r) ∈ ms → ∀ log, may i log r) (h : p.play code ms = some q) :
    Reachable code may s q := by
  induction ms generalizing p with
  | nil =>
    obtain rfl := Option.some_inj.mp h
    exact hp
  | cons m ms ih =>
    obtain ⟨p', hm, hrest⟩ := Option.bind_eq_some_iff.mp h
    refine ih (hp.tail ?_) (fun i r hi => hmay i r (List.mem_cons_of_mem _ hi)) hrest
    obtain ⟨i, r⟩ := m
    refine (move_stepBy (fun r' hr => ?_) hm).step
    subst hr
    exact hmay i r' List.mem_cons_self _

theorem get_play_reachable {code : ρ → Prog σ α} {may : ι → List (Done ρ σ α) → ρ → Prop} {s : σ}
    {ms : List (ι × Option ρ)} (h : ((start s).play code ms).isSome)
    (hmay : ∀ i r, (i, some r) ∈ ms → ∀ log, may i log r) :
    Reachable code may s (((start s).play code ms).get h) :=
  play_reachable .refl hmay (Option.some_get h).symm

/-- A program that takes its steps while nobody else does. -/
private theorem settle_run (code : ρ → Prog σ α) (may : ι → List (Done ρ σ α) → ρ → Prop) (i : ι) (p : Pool ι ρ σ α)
    (c : Call ρ σ α) {a : α} {t : σ} (h : c.rest.run p.shared = some (a, t)) :
    ∃ d, d.request = c.request ∧ d.result = a ∧ Relation.ReflTransGen (Step code may) (p.settle i c)
      ⟨t, Function.update p.calls i none, Function.update p.log i (p.log i ++ [d])⟩ := by
  generalize hrest : c.rest = rest at h
  induction rest generalizing p c with
  | ret b =>
    obtain ⟨rfl, rfl⟩ := Prod.mk.inj (Option.some.inj h)
    refine ⟨⟨c.request, c.origin, c.seen, b⟩, rfl, rfl, ?_⟩
    rw [settle_of_ret hrest]
  | fault => cases h
  | act update next ih =>
    have hlong : ∀ b, c.rest ≠ .ret b := fun b hb => by
      rw [hrest] at hb
      cases hb
    rw [settle_of_ne_ret hlong]
    obtain ⟨d, hreq, hres, hsteps⟩ := ih p.shared ⟨update p.shared, Function.update p.calls i (some c), p.log⟩
      { c with seen := c.seen ++ [p.shared], rest := next p.shared } rfl h
    refine ⟨d, hreq, hres, .head (.act _ i c update next (Function.update_self _ _ _) hrest) ?_⟩
    rwa [Function.update_idem] at hsteps

/-- Where no call is under way a party may make one from its begin to its end. -/
theorem Reachable.run {code : ρ → Prog σ α} {may : ι → List (Done ρ σ α) → ρ → Prop} {s t : σ} {p : Pool ι ρ σ α}
    {i : ι} {r : ρ} {a : α} (hp : Reachable code may s p) (hidle : p.calls = fun _ => none) (hmay : may i (p.log i) r)
    (h : (code r).run p.shared = some (a, t)) :
    ∃ d, d.request = r ∧ d.result = a ∧
      Reachable code may s ⟨t, fun _ => none, Function.update p.log i (p.log i ++ [d])⟩ := by
  obtain ⟨d, hreq, hres, hsteps⟩ := settle_run code may i p ⟨r, p.shared, [], code r⟩ h
  rw [hidle, Function.update_eq_self] at hsteps
  exact ⟨d, hreq, hres, (hp.tail (.begin p i r (by rw [hidle]) hmay)).trans hsteps⟩

end Pool

/-- The steps of a program at the states listed, with other parties moving
within `rely` before each of them, and what remains of it afterwards. -/
def Prog.Trace (rely : σ → σ → Prop) : List σ → Prog σ α → σ → Prog σ α → σ → Prop
  | [], p, s, q, s' => p = q ∧ s = s'
  | t :: ts, .act update next, s, q, s' => rely s t ∧ Trace rely ts (next t) (update t) q s'
  | _ :: _, _, _, _, _ => False

namespace Prog
variable {β : Type} {rely : σ → σ → Prop}

theorem trace_snoc {p : Prog σ α} {s s' t : σ} {ts : List σ} {update : σ → σ}
    {next : σ → Prog σ α} (h : Trace rely ts p s (.act update next) s') (ht : rely s' t) :
    Trace rely (ts ++ [t]) p s (next t) (update t) := by
  induction ts generalizing p s with
  | nil =>
    obtain ⟨rfl, rfl⟩ := h
    exact ⟨ht, rfl, rfl⟩
  | cons u ts ih =>
    cases p with
    | act f g => exact ⟨h.1, ih h.2⟩
    | ret a => exact h.elim
    | fault => exact h.elim

theorem trace_bind {p : Prog σ α} {f : α → Prog σ β} {s s' : σ} {ts : List σ} {b : β}
    (h : Trace rely ts (p >>= f) s (.ret b) s') :
    ∃ ts₁ ts₂ a u, ts = ts₁ ++ ts₂ ∧ Trace rely ts₁ p s (.ret a) u ∧
      Trace rely ts₂ (f a) u (.ret b) s' := by
  change Trace rely ts (p.bind f) s (.ret b) s' at h
  induction p generalizing s ts with
  | ret a => exact ⟨[], ts, a, s, rfl, ⟨rfl, rfl⟩, h⟩
  | fault => cases ts <;> simp [bind, Trace] at h
  | act update next ih =>
    cases ts with
    | nil => simp [bind, Trace] at h
    | cons t ts =>
      obtain ⟨ts₁, ts₂, a, u, rfl, h₁, h₂⟩ := ih t h.2
      exact ⟨t :: ts₁, ts₂, a, u, rfl, ⟨h.1, h₁⟩, h₂⟩

theorem trace_atomic {f : σ → Option (α × σ)} {s s' : σ} {ts : List σ} {a : α}
    (h : Trace rely ts (atomic f) s (.ret a) s') :
    ∃ t, ts = [t] ∧ rely s t ∧ f t = some (a, s') := by
  obtain _ | ⟨t, ts⟩ := ts
  · simp [atomic, Trace] at h
  · obtain ⟨ht, h⟩ := h
    dsimp only at h
    cases hf : f t with
    | none =>
      rw [hf] at h
      cases ts <;> simp [Trace] at h
    | some r =>
      rw [hf] at h
      cases ts with
      | nil =>
        obtain ⟨ha, hs⟩ := h
        obtain rfl : r.1 = a := by simpa using ha
        obtain rfl : r.2 = s' := by simpa using hs
        exact ⟨t, rfl, ht, hf⟩
      | cons => exact h.elim

theorem trace_pure {s s' : σ} {ts : List σ} {a b : α} (h : Trace rely ts (pure a) s (.ret b) s') :
    ts = [] ∧ a = b ∧ s = s' := by
  cases ts with
  | nil =>
    obtain ⟨ha, hs⟩ := h
    exact ⟨rfl, by simpa [pure] using ha, hs⟩
  | cons => exact h.elim

/-- What is left of a safe program is safe when the others kept to their part, and so is how it ends. -/
theorem Safe.along {stay : σ → σ → Prop} {crash : Prop} {fin : α → σ → σ → Prop} {p q : Prog σ α} {s₀ s s' : σ}
    {ts : List σ} (h : Safe rely stay crash fin p s₀ s) (ht : Trace rely ts p s q s') :
    ∃ u, Safe rely stay crash fin q u s' := by
  induction ts generalizing p s₀ s with
  | nil =>
    obtain ⟨rfl, rfl⟩ := ht
    exact ⟨s₀, h⟩
  | cons t ts ih =>
    cases p with
    | act update next => exact ih (h.2 t ht.1) ht.2
    | ret b => exact ht.elim
    | fault => exact ht.elim

theorem Safe.of_trace {stay : σ → σ → Prop} {crash : Prop} {fin : α → σ → σ → Prop} {p : Prog σ α} {s₀ s s' : σ}
    {ts : List σ} {a : α} (h : Safe rely stay crash fin p s₀ s) (ht : Trace rely ts p s (.ret a) s') :
    ∃ u, fin a u s' := h.along ht

def Ends (Q : α → Prop) : Prog σ α → Prop
  | .ret a => Q a
  | .fault => True
  | .act _ next => ∀ s, Ends Q (next s)

theorem ends_pure {Q : α → Prop} {a : α} : Ends Q (pure a : Prog σ α) ↔ Q a := Iff.rfl

theorem ends_bind {Q : β → Prop} {p : Prog σ α} {f : α → Prog σ β} (h : ∀ a, Ends Q (f a)) :
    Ends Q (p >>= f) := by
  change Ends Q (p.bind f)
  induction p with
  | ret a => exact h a
  | fault => trivial
  | act update next ih => exact fun s => ih s

theorem Ends.ite {Q : α → Prop} {c : Prop} [Decidable c] {p q : Prog σ α} (hp : Ends Q p) (hq : Ends Q q) :
    Ends Q (if c then p else q) := by
  split
  · exact hp
  · exact hq

theorem Ends.of_trace {Q : α → Prop} {p : Prog σ α} {s s' : σ} {ts : List σ} {a : α} (h : Ends Q p)
    (ht : Trace rely ts p s (.ret a) s') : Q a := by
  induction ts generalizing p s with
  | nil =>
    obtain ⟨rfl, -⟩ := ht
    exact h
  | cons t ts ih =>
    cases p with
    | act update next => exact ih (h t) ht.2
    | ret b => exact ht.elim
    | fault => exact ht.elim

attribute [irreducible] Ends

end Prog

/-- What each party may rely on and what its steps give in return: an unfinished
step is a `stay`, the step that ends a call is a `fin`. -/
structure Contract (code : ρ → Prog σ α) (may : ι → List (Done ρ σ α) → ρ → Prop)
    [DecidableEq ι] where
  inv : σ → (ι → List (Done ρ σ α)) → Prop
  rely : ι → σ → σ → Prop
  stay : ι → σ → σ → Prop
  fin : ι → ρ → α → σ → σ → Prop
  crash : Prop
  rely_refl : ∀ i s, rely i s s
  rely_trans : ∀ i s t u, rely i s t → rely i t u → rely i s u
  stay_rely : ∀ i j s t, i ≠ j → stay i s t → rely j s t
  fin_rely : ∀ i j r a s t, i ≠ j → fin i r a s t → rely j s t
  stay_inv : ∀ i s t log, stay i s t → inv s log → inv t log
  fin_inv : ∀ i s t log d, fin i d.request d.result s t → inv s log →
    inv t (Function.update log i (log i ++ [d]))
  safe : ∀ i r s log, inv s log → may i (log i) r →
    (code r).Safe (rely i) (stay i) crash (fin i r) s s

namespace Contract
variable [DecidableEq ι] {code : ρ → Prog σ α} {may : ι → List (Done ρ σ α) → ρ → Prop}
  (K : Contract code may)

def Began (i : ι) (pre : List (Done ρ σ α)) (r : ρ) (s : σ) : Prop :=
  may i pre r ∧ ∃ log, log i = pre ∧ K.inv s log

def Alive (i : ι) (pre : List (Done ρ σ α)) (c : Call ρ σ α) (t : σ) : Prop :=
  K.Began i pre c.request c.origin ∧ ∃ s₀ s,
    Prog.Trace (K.rely i) c.seen (code c.request) c.origin c.rest s ∧
    c.rest.Safe (K.rely i) (K.stay i) K.crash (K.fin i c.request) s₀ s ∧ K.rely i s t

def Past (i : ι) (pre : List (Done ρ σ α)) (d : Done ρ σ α) : Prop :=
  K.Began i pre d.request d.origin ∧
    ∃ s, Prog.Trace (K.rely i) d.seen (code d.request) d.origin (.ret d.result) s

structure Holds (p : Pool ι ρ σ α) : Prop where
  inv : K.inv p.shared p.log
  running : ∀ i c, p.calls i = some c → K.Alive i (p.log i) c p.shared
  finished : ∀ i pre d post, p.log i = pre ++ d :: post → K.Past i pre d

private theorem split_snoc {β : Type} {l pre post : List β} {d e : β}
    (h : l ++ [e] = pre ++ d :: post) :
    (pre = l ∧ d = e) ∨ ∃ post', l = pre ++ d :: post' := by
  rcases List.eq_nil_or_concat post with rfl | ⟨post', x, rfl⟩
  · obtain ⟨rfl, he⟩ := List.append_inj' h rfl
    exact .inl ⟨rfl, by simpa using he.symm⟩
  · refine .inr ⟨post', ?_⟩
    rw [List.concat_eq_append, ← List.cons_append, ← List.append_assoc] at h
    exact (List.append_inj' h rfl).1

private theorem stay_of_safe {p : Prog σ α} {i : ι} {r : ρ} {s t : σ}
    (h : p.Safe (K.rely i) (K.stay i) K.crash (K.fin i r) s t) (hp : ∀ a, p = .ret a → False) :
    K.stay i s t := by
  cases p with
  | ret a => exact (hp a rfl).elim
  | fault => exact h.1
  | act update next => exact h.1

private theorem Alive.move {j : ι} {pre : List (Done ρ σ α)} {c : Call ρ σ α} {s t : σ}
    (h : K.Alive j pre c s) (hr : K.rely j s t) : K.Alive j pre c t := by
  obtain ⟨hb, s₀, s₁, htr, hs, h₁⟩ := h
  exact ⟨hb, s₀, s₁, htr, hs, K.rely_trans j s₁ s t h₁ hr⟩

/-- The pool after a step of party `i` from the state `t`: the step was a `stay`
or a `fin`, so the other parties keep what they rely on. -/
private theorem settle_holds {p : Pool ι ρ σ α} {i : ι} {c : Call ρ σ α} {t : σ}
    (hp : K.Holds { p with shared := t }) (hb : K.Began i (p.log i) c.request c.origin)
    (htr : Prog.Trace (K.rely i) c.seen (code c.request) c.origin c.rest p.shared)
    (hs : c.rest.Safe (K.rely i) (K.stay i) K.crash (K.fin i c.request) t p.shared) :
    K.Holds (p.settle i c) := by
  obtain ⟨hinv, hrun, hfin⟩ := hp
  dsimp only at hinv hrun hfin
  unfold Pool.settle
  split
  · rename_i a ha
    rw [ha] at hs htr
    refine ⟨K.fin_inv i t p.shared p.log ⟨c.request, c.origin, c.seen, a⟩ hs hinv, ?_, ?_⟩
    · intro j c' hc'
      dsimp only at hc' ⊢
      rcases eq_or_ne j i with rfl | hj
      · simp at hc'
      · rw [Function.update_of_ne hj] at hc' ⊢
        exact (hrun j c' hc').move K (K.fin_rely i j _ _ _ _ hj.symm hs)
    · intro j pre d post hd
      dsimp only at hd
      rcases eq_or_ne j i with rfl | hj
      · rw [Function.update_self] at hd
        obtain ⟨rfl, rfl⟩ | ⟨post', hd'⟩ := split_snoc hd
        · exact ⟨hb, p.shared, htr⟩
        · exact hfin j pre d post' hd'
      · rw [Function.update_of_ne hj] at hd
        exact hfin j pre d post hd
  · rename_i hrest
    have hstay := K.stay_of_safe hs hrest
    refine ⟨K.stay_inv i _ _ _ hstay hinv, fun j c' hc' => ?_, hfin⟩
    dsimp only at hc' ⊢
    rcases eq_or_ne j i with rfl | hj
    · rw [Function.update_self, Option.some_inj] at hc'
      subst hc'
      exact ⟨hb, t, p.shared, htr, hs, K.rely_refl _ _⟩
    · rw [Function.update_of_ne hj] at hc'
      exact (hrun j c' hc').move K (K.stay_rely i j _ _ hj.symm hstay)

theorem step_holds {p q : Pool ι ρ σ α} (h : Pool.Step code may p q) (hp : K.Holds p) :
    K.Holds q := by
  cases h with
  | begin i r hnone hmay =>
    exact K.settle_holds hp ⟨hmay, p.log, rfl, hp.inv⟩ ⟨rfl, rfl⟩ (K.safe i r _ _ hp.inv hmay)
  | act i c update next hc hrest =>
    obtain ⟨hb, s₀, s, htr, hs, hr⟩ := hp.running i c hc
    rw [hrest] at htr hs
    exact K.settle_holds (p := { p with shared := update p.shared }) (t := p.shared) hp hb
      (Prog.trace_snoc htr hr) (hs.2 p.shared hr)

/-- Every interleaving keeps the contract: the invariant holds in every state
reached, and every call in a log is a trace that began under it. -/
theorem sound {s : σ} (h₀ : K.inv s fun _ => []) {p : Pool ι ρ σ α}
    (h : Pool.Reachable code may s p) : K.Holds p := by
  induction h with
  | refl => exact ⟨h₀, fun _ _ hc => by simp [Pool.start] at hc,
      fun _ pre d post hd => by simp [Pool.start] at hd⟩
  | tail _ hst ih => exact K.step_holds hst ih

/-- The next step of a call under way, taken in the state of the pool. -/
theorem next_safe {p : Pool ι ρ σ α} (hp : K.Holds p) {i : ι} {c : Call ρ σ α} (hc : p.calls i = some c) {update : σ → σ}
    {next : σ → Prog σ α} (hrest : c.rest = .act update next) :
    (next p.shared).Safe (K.rely i) (K.stay i) K.crash (K.fin i c.request) p.shared (update p.shared) := by
  obtain ⟨-, s₀, s, -, hs, hr⟩ := hp.running i c hc
  rw [hrest] at hs
  exact hs.2 p.shared hr

/-- A step is a `stay` or, where it ends the call, a `fin`. -/
theorem next_stay {p : Pool ι ρ σ α} (hp : K.Holds p) {i : ι} {c : Call ρ σ α} (hc : p.calls i = some c) {update : σ → σ}
    {next : σ → Prog σ α} (hrest : c.rest = .act update next) (hret : ∀ a, next p.shared ≠ .ret a) :
    K.stay i p.shared (update p.shared) :=
  K.stay_of_safe (K.next_safe hp hc hrest) hret

theorem next_fin {p : Pool ι ρ σ α} (hp : K.Holds p) {i : ι} {c : Call ρ σ α} (hc : p.calls i = some c) {update : σ → σ}
    {next : σ → Prog σ α} (hrest : c.rest = .act update next) {a : α} (hret : next p.shared = .ret a) :
    K.fin i c.request a p.shared (update p.shared) := by
  have h := K.next_safe hp hc hrest
  rwa [hret] at h

private theorem settle_shared (i : ι) (c : Call ρ σ α) (p : Pool ι ρ σ α) : (p.settle i c).shared = p.shared := by
  unfold Pool.settle
  split <;> rfl

/-- What the step of another party does is within what a party relies on. -/
theorem stepBy_rely {p q : Pool ι ρ σ α} (hp : K.Holds p) {i j : ι} (hij : i ≠ j) (h : Pool.StepBy code may i p q) :
    K.rely j p.shared q.shared := by
  cases h with
  | begin r hnone hmay =>
    rw [settle_shared]
    exact K.rely_refl j p.shared
  | act c update next hc hrest =>
    rw [settle_shared]
    by_cases hret : ∃ a, next p.shared = .ret a
    · obtain ⟨a, ha⟩ := hret
      exact K.fin_rely i j _ _ _ _ hij (K.next_fin hp hc hrest ha)
    · exact K.stay_rely i j _ _ hij (K.next_stay hp hc hrest (not_exists.mp hret))

/-- No call crashes under a contract that excludes it. -/
theorem no_fault {s : σ} (h₀ : K.inv s fun _ => []) (hc : ¬K.crash) {p : Pool ι ρ σ α}
    (h : Pool.Reachable code may s p) {i : ι} {c : Call ρ σ α} (hi : p.calls i = some c) :
    c.rest ≠ .fault := by
  intro hf
  obtain ⟨_, _, _, _, hs, _⟩ := (K.sound h₀ h).running i c hi
  rw [hf] at hs
  exact hc hs.2

end Contract
end Glip.Foundation
