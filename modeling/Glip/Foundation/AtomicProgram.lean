import Mathlib.Logic.Relation
import Mathlib.Tactic.Common

/-! Sequential programs over a shared state whose steps are indivisible, and the
rely conditions under which such a program may be interleaved with others. -/
namespace Glip.Foundation

/-- Every `act` is one indivisible step: it updates the shared state, and what
follows depends only on the state the step saw. `fault` is a run that has
crashed: a failed assertion or an access outside a block of memory. -/
inductive Prog (σ α : Type) where
  | ret (a : α)
  | fault
  | act (update : σ → σ) (next : σ → Prog σ α)

namespace Prog
variable {σ α β : Type}

def bind : Prog σ α → (α → Prog σ β) → Prog σ β
  | .ret a, f => f a
  | .fault, _ => .fault
  | .act update next, f => .act update (fun s => (next s).bind f)

instance : Monad (Prog σ) where
  pure := .ret
  bind := bind

private theorem bind_bind {γ : Type} (p : Prog σ α) (f : α → Prog σ β) (g : β → Prog σ γ) :
    (p.bind f).bind g = p.bind fun a => (f a).bind g := by
  induction p with
  | ret a => rfl
  | fault => rfl
  | act update next ih => exact congrArg (act update) (funext ih)

private theorem bind_ret (p : Prog σ α) : p.bind .ret = p := by
  induction p with
  | ret a => rfl
  | fault => rfl
  | act update next ih => exact congrArg (act update) (funext ih)

instance : LawfulMonad (Prog σ) := LawfulMonad.mk' _ bind_ret (fun _ _ => rfl) bind_bind

def atomic (f : σ → Option (α × σ)) : Prog σ α :=
  .act (fun s => ((f s).map Prod.snd).getD s) (fun s => (f s).elim .fault (fun r => .ret r.1))

def run : Prog σ α → σ → Option (α × σ)
  | .ret a, s => some (a, s)
  | .fault, _ => none
  | .act update next, s => (next s).run (update s)

@[simp] theorem run_pure (a : α) (s : σ) : (pure a : Prog σ α).run s = some (a, s) := rfl
@[simp] theorem run_fault (s : σ) : (fault : Prog σ α).run s = none := rfl

@[simp] theorem run_bind (p : Prog σ α) (f : α → Prog σ β) (s : σ) :
    (p >>= f).run s = (p.run s).bind (fun r => (f r.1).run r.2) := by
  change (p.bind f).run s = _
  induction p generalizing s with
  | ret a => rfl
  | fault => rfl
  | act update next ih => exact ih s (update s)

@[simp] theorem run_atomic (f : σ → Option (α × σ)) (s : σ) : (atomic f).run s = f s := by
  cases h : f s <;> simp [atomic, run, h]

@[simp] theorem run_ite (c : Prop) [Decidable c] (p q : Prog σ α) (s : σ) :
    (if c then p else q).run s = if c then p.run s else q.run s := by
  split <;> rfl

/-- The program taken from a state that its last step moved from `s₀` to `s`:
every step it leaves behind is a `stay`, it ends in a `fin`, and both hold
whatever moves within `rely` the other parties make before each of its steps. -/
def Safe (rely stay : σ → σ → Prop) (crash : Prop) (fin : α → σ → σ → Prop) :
    Prog σ α → σ → σ → Prop
  | .ret a, s₀, s => fin a s₀ s
  | .fault, s₀, s => stay s₀ s ∧ crash
  | .act update next, s₀, s => stay s₀ s ∧
      ∀ t, rely s t → Safe rely stay crash fin (next t) t (update t)

variable {rely stay : σ → σ → Prop} {crash : Prop}

@[simp] theorem safe_pure (fin : α → σ → σ → Prop) (a : α) (s₀ s : σ) :
    Safe rely stay crash fin (pure a) s₀ s ↔ fin a s₀ s := Iff.rfl

theorem safe_bind (fin : β → σ → σ → Prop) (p : Prog σ α) (f : α → Prog σ β) (s₀ s : σ) :
    Safe rely stay crash fin (p >>= f) s₀ s ↔
      Safe rely stay crash (fun a => Safe rely stay crash fin (f a)) p s₀ s := by
  change Safe rely stay crash fin (p.bind f) s₀ s ↔ _
  induction p generalizing s₀ s with
  | ret a => rfl
  | fault => rfl
  | act update next ih =>
    simp only [bind, Safe]
    exact and_congr_right fun _ => forall₂_congr fun t _ => ih t t (update t)

theorem safe_atomic (fin : α → σ → σ → Prop) (f : σ → Option (α × σ)) (s₀ s : σ) :
    Safe rely stay crash fin (atomic f) s₀ s ↔ stay s₀ s ∧
      ∀ t, rely s t → (f t).elim (stay t t ∧ crash) (fun r => fin r.1 t r.2) := by
  refine and_congr_right fun _ => forall₂_congr fun t _ => ?_
  cases h : f t <;> simp [Safe, h]

theorem Safe.mono {fin fin' : α → σ → σ → Prop} {p : Prog σ α} {s₀ s : σ}
    (h : Safe rely stay crash fin p s₀ s) (hf : ∀ a s₀ s, fin a s₀ s → fin' a s₀ s) :
    Safe rely stay crash fin' p s₀ s := by
  induction p generalizing s₀ s with
  | ret a => exact hf a s₀ s h
  | fault => exact h
  | act update next ih => exact ⟨h.1, fun t ht => ih t (h.2 t ht)⟩

/-- A program that is safe while the others rest runs to its end: its last step,
from a state `u` that only `stay` steps led to, is a `fin`. -/
theorem Safe.run {fin : α → σ → σ → Prop} {p : Prog σ α} {o s₀ s : σ}
    (h : Safe rely stay crash fin p s₀ s) (hrely : ∀ s, rely s s) (hcrash : ¬crash)
    (htrans : ∀ s t u, stay s t → stay t u → stay s u) (ho : stay o s₀) :
    ∃ a u t, p.run s = some (a, t) ∧ stay o u ∧ fin a u t := by
  induction p generalizing s₀ s with
  | ret a => exact ⟨a, s₀, s, rfl, ho, h⟩
  | fault => exact (hcrash h.2).elim
  | act update next ih => exact ih s (h.2 s (hrely s)) (htrans o s₀ s ho h.1)

/-- From states in `J`, which neither the others nor the program's own steps leave, it is enough that the
program is safe under what the others do there; `J` still holds when the last step is taken. -/
theorem Safe.within {rely' : σ → σ → Prop} {J : σ → Prop} {fin : α → σ → σ → Prop} {p : Prog σ α} {s₀ s : σ}
    (h : Safe rely' stay crash fin p s₀ s) (hrely : ∀ s t, J s → rely s t → rely' s t ∧ J t)
    (hstay : ∀ s t, J s → stay s t → J t) (h₀ : J s₀) :
    Safe rely stay crash (fun a s₀ s => fin a s₀ s ∧ J s₀) p s₀ s := by
  induction p generalizing s₀ s with
  | ret a => exact ⟨h, h₀⟩
  | fault => exact h
  | act update next ih =>
    refine ⟨h.1, fun t ht => ?_⟩
    obtain ⟨ht', hJ⟩ := hrely s t (hstay s₀ s h₀ h.1) ht
    exact ih t (h.2 t ht') hJ

inductive Rest : Option (Prog σ α) → Option (Prog σ α) → Prop where
  | begins (p : Prog σ α) : Rest (some p) none
  | acts (update : σ → σ) (next : σ → Prog σ α) (s : σ) : Rest (some (next s)) (some (.act update next))

theorem wellFounded_rest : WellFounded (@Rest σ α) := by
  have hsome : ∀ p : Prog σ α, Acc Rest (some p) := by
    intro p
    induction p with
    | ret a => exact ⟨_, fun _ h => by cases h⟩
    | fault => exact ⟨_, fun _ h => by cases h⟩
    | act update next ih =>
      refine ⟨_, fun _ h => ?_⟩
      cases h with
      | acts => exact ih _
  refine ⟨fun p => ?_⟩
  cases p with
  | none =>
    refine ⟨_, fun _ h => ?_⟩
    cases h with
    | begins p => exact hsome p
  | some p => exact hsome p

/-- Every step of the program, from any state, is a `stay` step. -/
def Keeps (stay : σ → σ → Prop) : Prog σ α → Prop
  | .ret _ => True
  | .fault => True
  | .act update next => (∀ s, stay s (update s)) ∧ ∀ s, (next s).Keeps stay

namespace Keeps

theorem pure (a : α) : (pure a : Prog σ α).Keeps stay := trivial

theorem fault : (fault : Prog σ α).Keeps stay := trivial

theorem bind {p : Prog σ α} {f : α → Prog σ β} (hp : p.Keeps stay) (hf : ∀ a, (f a).Keeps stay) :
    (p >>= f).Keeps stay := by
  change (p.bind f).Keeps stay
  induction p with
  | ret a => exact hf a
  | fault => trivial
  | act update next ih => exact ⟨hp.1, fun s => ih s (hp.2 s)⟩

theorem ite {c : Prop} [Decidable c] {p q : Prog σ α} (hp : p.Keeps stay) (hq : q.Keeps stay) :
    (if c then p else q).Keeps stay := by
  split
  · exact hp
  · exact hq

theorem atomic {f : σ → Option (α × σ)} (hrefl : ∀ s, stay s s) (hf : ∀ s a t, f s = some (a, t) → stay s t) :
    (atomic f).Keeps stay := by
  refine ⟨fun s => ?_, fun s => ?_⟩
  · change stay s (((f s).map Prod.snd).getD s)
    cases h : f s with
    | none => exact hrefl s
    | some r => exact hf s r.1 r.2 h
  · change ((f s).elim .fault fun r => .ret r.1 : Prog σ α).Keeps stay
    cases f s <;> trivial

/-- So is a run of the program. -/
theorem run {p : Prog σ α} (hp : p.Keeps stay) (hrefl : ∀ s, stay s s)
    (htrans : ∀ s t u, stay s t → stay t u → stay s u) {s t : σ} {a : α} (h : p.run s = some (a, t)) : stay s t := by
  induction p generalizing s with
  | ret b =>
    cases h
    exact hrefl _
  | fault => cases h
  | act update next ih => exact htrans _ _ _ (hp.1 s) (ih s (hp.2 s) h)

end Keeps
end Prog

def Stable {σ : Type} (rely : σ → σ → Prop) (P : σ → Prop) : Prop :=
  ∀ s t, rely s t → P s → P t

namespace Prog
variable {σ α β : Type} {rely stay : σ → σ → Prop} {crash : Prop}

/-- Hoare triple of a program piece all of whose steps are `stay` steps. -/
def Triple (rely stay : σ → σ → Prop) (crash : Prop)
    (P : σ → Prop) (p : Prog σ α) (Q : α → σ → Prop) : Prop :=
  ∀ s₀ s, stay s₀ s → P s → Safe rely stay crash (fun a s₀ s => stay s₀ s ∧ Q a s) p s₀ s

namespace Triple
variable {P P' : σ → Prop} {Q Q' : α → σ → Prop}

theorem pure (a : α) : Triple rely stay crash (Q a) (pure a) Q :=
  fun _ _ hs hq => ⟨hs, hq⟩

theorem conseq {p : Prog σ α} (h : Triple rely stay crash P p Q) (hP : ∀ s, P' s → P s)
    (hQ : ∀ a s, Q a s → Q' a s) : Triple rely stay crash P' p Q' :=
  fun s₀ s hs hp => (h s₀ s hs (hP s hp)).mono fun a _ t ht => ⟨ht.1, hQ a t ht.2⟩

theorem bind {R : β → σ → Prop} {p : Prog σ α} {f : α → Prog σ β}
    (hp : Triple rely stay crash P p Q) (hf : ∀ a, Triple rely stay crash (Q a) (f a) R) :
    Triple rely stay crash P (p >>= f) R := fun _ s hs hP =>
  (safe_bind _ _ _ _ _).mpr ((hp _ s hs hP).mono fun a t₀ t ht => hf a t₀ t ht.1 ht.2)

theorem atomic {f : σ → Option (α × σ)} (hP : Stable rely P)
    (hf : ∀ t, P t → (f t).elim (stay t t ∧ crash) (fun r => stay t r.2 ∧ Q r.1 r.2)) :
    Triple rely stay crash P (atomic f) Q := fun _ s hs hp =>
  (safe_atomic _ _ _ _).mpr ⟨hs, fun t ht => hf t (hP s t ht hp)⟩

/-- A step that only looks at the state. -/
theorem view {f : σ → α} (hr : ∀ s, stay s s) (hP : Stable rely P) (hf : ∀ t, P t → Q (f t) t) :
    Triple rely stay crash P (Prog.atomic fun s => some (f s, s)) Q :=
  atomic hP fun t ht => ⟨hr t, hf t ht⟩

/-- A precondition on what is already known is put aside. -/
theorem given {c : Prop} {p : Prog σ α} (h : c → Triple rely stay crash P p Q) :
    Triple rely stay crash (fun s => c ∧ P s) p Q :=
  fun s₀ s hs hp => h hp.1 s₀ s hs hp.2

theorem exists_ {ι : Type} {P : ι → σ → Prop} {p : Prog σ α}
    (h : ∀ i, Triple rely stay crash (P i) p Q) : Triple rely stay crash (fun s => ∃ i, P i s) p Q :=
  fun s₀ s hs ⟨i, hp⟩ => h i s₀ s hs hp

theorem ite {c : Prop} [Decidable c] {p q : Prog σ α}
    (hp : c → Triple rely stay crash P p Q) (hq : ¬c → Triple rely stay crash P q Q) :
    Triple rely stay crash P (if c then p else q) Q := by
  split
  · exact hp ‹_›
  · exact hq ‹_›

/-- A piece followed by the rest of a call, whose last step need not be a `stay`. -/
theorem andThen {fin : β → σ → σ → Prop} {p : Prog σ α} {f : α → Prog σ β} {s₀ s : σ}
    (hp : Triple rely stay crash P p Q) (hs : stay s₀ s) (hP : P s)
    (hf : ∀ a t₀ t, stay t₀ t → Q a t → Safe rely stay crash fin (f a) t₀ t) :
    Safe rely stay crash fin (p >>= f) s₀ s :=
  (safe_bind _ _ _ _ _).mpr ((hp s₀ s hs hP).mono fun a t₀ t ht => hf a t₀ t ht.1 ht.2)

/-- A piece whose steps are all `stay` steps, where those keep `P` and a crash is allowed. -/
theorem of_keeps {P : σ → Prop} {p : Prog σ α} (hp : p.Keeps stay) (hcrash : crash) (hP : Stable rely P)
    (hkeep : ∀ s t, stay s t → P s → P t) : Triple rely stay crash P p fun _ => P := by
  intro s₀ s hs h
  induction p generalizing s₀ s with
  | ret a => exact ⟨hs, h⟩
  | fault => exact ⟨hs, hcrash⟩
  | act update next ih =>
    refine ⟨hs, fun t ht => ?_⟩
    have hstep := hp.1 t
    exact ih t (hp.2 t) t (update t) hstep (hkeep t _ hstep (hP s t ht h))

end Triple
end Prog
end Glip.Foundation
