import Mathlib.Data.List.Basic
import Mathlib.Tactic.Common

/-! Machines that read one input at a time and emit any number of events on it. -/
namespace Glip.Foundation

/-- An event that is emitted on a condition. -/
theorem filterMap_guarded {β γ : Type} (p : β → Option γ) (b : Bool) (e : β) :
    (if b then [e] else []).filterMap p = if b then (p e).toList else [] := by
  cases b with
  | false => rfl
  | true =>
    cases h : p e with
    | none => simp [h]
    | some c => simp [h]

structure Transducer (σ ι ε : Type) where
  next : σ → ι → σ
  emit : σ → ι → List ε

namespace Transducer
variable {σ ι ε : Type} (m : Transducer σ ι ε)

def after (s : σ) (ins : List ι) : σ := ins.foldl m.next s

def emitted : σ → List ι → List ε
  | _, [] => []
  | s, i :: ins => m.emit s i ++ emitted (m.next s i) ins

@[simp] theorem after_nil (s : σ) : m.after s [] = s := rfl

@[simp] theorem after_cons (s : σ) (i : ι) (ins : List ι) :
    m.after s (i :: ins) = m.after (m.next s i) ins := rfl

@[simp] theorem emitted_nil (s : σ) : m.emitted s [] = [] := rfl

@[simp] theorem emitted_cons (s : σ) (i : ι) (ins : List ι) :
    m.emitted s (i :: ins) = m.emit s i ++ m.emitted (m.next s i) ins := rfl

theorem after_append (s : σ) (a b : List ι) : m.after s (a ++ b) = m.after (m.after s a) b :=
  List.foldl_append

theorem emitted_append (s : σ) (a b : List ι) :
    m.emitted s (a ++ b) = m.emitted s a ++ m.emitted (m.after s a) b := by
  induction a generalizing s with
  | nil => rfl
  | cons i a ih =>
    rw [List.cons_append, emitted_cons, emitted_cons, ih, List.append_assoc]
    rfl

def Along (P : σ → Prop) (s : σ) (ins : List ι) : Prop := ∀ k < ins.length, P (m.after s (ins.take k))

theorem along_nil (P : σ → Prop) (s : σ) : m.Along P s [] := nofun

theorem along_cons {P : σ → Prop} {s : σ} {i : ι} {ins : List ι} :
    m.Along P s (i :: ins) ↔ P s ∧ m.Along P (m.next s i) ins := by
  constructor
  · intro h
    exact ⟨h 0 (Nat.succ_pos _), fun k hk => h (k + 1) (Nat.succ_lt_succ hk)⟩
  · rintro ⟨h0, hs⟩ (_ | k) hk
    · exact h0
    · exact hs k (Nat.lt_of_succ_lt_succ hk)

theorem along_append {P : σ → Prop} {s : σ} {a b : List ι} :
    m.Along P s (a ++ b) ↔ m.Along P s a ∧ m.Along P (m.after s a) b := by
  induction a generalizing s with
  | nil => simp [along_nil]
  | cons i a ih => rw [List.cons_append, along_cons, along_cons, ih, after_cons, and_assoc]

def Each (P : σ → ι → Prop) : σ → List ι → Prop
  | _, [] => True
  | s, i :: ins => P s i ∧ Each P (m.next s i) ins

instance {P : σ → ι → Prop} [∀ s i, Decidable (P s i)] : (s : σ) → (ins : List ι) → Decidable (m.Each P s ins)
  | _, [] => instDecidableTrue
  | s, i :: ins =>
    have : Decidable (m.Each P (m.next s i) ins) := instDecidableEach (m.next s i) ins
    inferInstanceAs (Decidable (_ ∧ _))

theorem each_append {P : σ → ι → Prop} {s : σ} {a b : List ι} :
    m.Each P s (a ++ b) ↔ m.Each P s a ∧ m.Each P (m.after s a) b := by
  induction a generalizing s with
  | nil => simp [Each]
  | cons i a ih => rw [List.cons_append, Each, Each, ih, after_cons, and_assoc]

/-- What holds of the events so far and the state, and is kept by every step that is allowed. -/
theorem history {m : Transducer σ ι ε} {P : σ → ι → Prop} {inv : List ε → σ → Prop}
    (hstep : ∀ es s i, inv es s → P s i → inv (es ++ m.emit s i) (m.next s i)) {es : List ε} {s : σ} {ins : List ι}
    (h : inv es s) (hP : m.Each P s ins) : inv (es ++ m.emitted s ins) (m.after s ins) := by
  induction ins generalizing es s with
  | nil => rwa [emitted_nil, List.append_nil]
  | cons i ins ih =>
    obtain ⟨hi, hins⟩ := hP
    rw [emitted_cons, after_cons, ← List.append_assoc]
    exact ih (hstep es s i h hi) hins

/-- Inputs that `sample` drops change nothing, and the others are read as what it
makes of them: the run is the run of the machine `n` over the sampled inputs. -/
theorem sampled {β : Type} {m : Transducer σ ι ε} {n : Transducer σ β ε} {sample : ι → Option β}
    (ins : List ι) (hidle : ∀ i ∈ ins, sample i = none → ∀ s, m.next s i = s ∧ m.emit s i = [])
    (hread : ∀ i ∈ ins, ∀ b, sample i = some b → ∀ s, m.next s i = n.next s b ∧ m.emit s i = n.emit s b)
    (s : σ) :
    m.after s ins = n.after s (ins.filterMap sample) ∧
      m.emitted s ins = n.emitted s (ins.filterMap sample) := by
  induction ins generalizing s with
  | nil => exact ⟨rfl, rfl⟩
  | cons i ins ih =>
    have ih := ih (fun j hj => hidle j (.tail i hj)) (fun j hj => hread j (.tail i hj))
    cases h : sample i with
    | none =>
      obtain ⟨hn, he⟩ := hidle i (.head ins) h s
      rw [List.filterMap_cons_none h, after_cons, emitted_cons, hn, he]
      exact ih s
    | some b =>
      obtain ⟨hn, he⟩ := hread i (.head ins) b h s
      rw [List.filterMap_cons_some h, after_cons, emitted_cons, after_cons, emitted_cons, hn, he]
      exact ⟨(ih _).1, congrArg _ (ih _).2⟩

/-- A machine that may wait: in the states in `P` an input that is not kept changes nothing that
matters and emits nothing, so the run is the one over the inputs that are kept. -/
theorem waits {m : Transducer σ ι ε} {R : σ → σ → Prop} {P : σ → Prop} {keep : ι → Bool} (ins : List ι)
    (hwait : ∀ i ∈ ins, keep i = false → ∀ s t, R s t → P s → R (m.next s i) t ∧ m.emit s i = [])
    (hread : ∀ i ∈ ins, keep i = true → ∀ s t, R s t → R (m.next s i) (m.next t i) ∧ m.emit s i = m.emit t i)
    {s t : σ} (hR : R s t)
    (hsafe : ∀ k (hk : k < ins.length), keep ins[k] = false → P (m.after s (ins.take k))) :
    R (m.after s ins) (m.after t (ins.filter keep)) ∧ m.emitted s ins = m.emitted t (ins.filter keep) := by
  induction ins generalizing s t with
  | nil => exact ⟨hR, rfl⟩
  | cons i ins ih =>
    have ih {s t : σ} := ih (fun j hj => hwait j (.tail i hj)) (fun j hj => hread j (.tail i hj)) (s := s) (t := t)
    have hrest (k : Nat) (hk : k < ins.length) (h : keep ins[k] = false) :
        P (m.after (m.next s i) (ins.take k)) := hsafe (k + 1) (Nat.succ_lt_succ hk) h
    cases h : keep i with
    | false =>
      obtain ⟨hn, he⟩ := hwait i (.head ins) h s t hR (hsafe 0 (Nat.succ_pos _) h)
      rw [List.filter_cons_of_neg (by simp [h]), after_cons, emitted_cons, he]
      exact ih hn hrest
    | true =>
      obtain ⟨hn, he⟩ := hread i (.head ins) h s t hR
      obtain ⟨ha, hem⟩ := ih hn hrest
      rw [List.filter_cons_of_pos h, after_cons, emitted_cons, after_cons, emitted_cons, he, hem]
      exact ⟨ha, rfl⟩

/-- Where each step passes on what it reads, up to what the state holds of it, so does a run. Both
machines read the same inputs: `r` emits what a step takes and `w` what it gives, and `k` is what it keeps. -/
theorem conserves {α β γ : Type} {r : Transducer σ ι α} {w : Transducer σ ι β} {P : σ → Prop}
    {k : σ → List γ} {f : α → List γ} {g : β → List γ} (hnext : r.next = w.next)
    (hkeep : ∀ s i, P s → P (w.next s i))
    (hstep : ∀ s i, P s →
      (w.emit s i).flatMap g ++ k (w.next s i) = k s ++ (r.emit s i).flatMap f)
    (ins : List ι) (s : σ) (hs : P s) :
    P (w.after s ins) ∧
      (w.emitted s ins).flatMap g ++ k (w.after s ins) = k s ++ (r.emitted s ins).flatMap f := by
  induction ins generalizing s with
  | nil => exact ⟨hs, by simp⟩
  | cons i ins ih =>
    obtain ⟨hP, hrest⟩ := ih (w.next s i) (hkeep s i hs)
    refine ⟨hP, ?_⟩
    rw [emitted_cons, emitted_cons, after_cons, List.flatMap_append, List.flatMap_append, List.append_assoc,
      hrest, ← List.append_assoc, hstep s i hs, List.append_assoc, hnext]

section Signal

def signal (f : Nat → ι) (a k : Nat) : List ι := (List.range k).map fun i => f (a + 1 + i)

theorem signal_add (f : Nat → ι) (a k l : Nat) : signal f a (k + l) = signal f a k ++ signal f (a + k) l := by
  rw [signal, signal, signal, List.range_add, List.map_append, List.map_map]
  congr 2
  funext i
  simp only [Function.comp_apply]
  congr 1
  omega

/-- From the state `s` at instant `a` the signal takes the machine to `t` at instant `b`. -/
structure Goes (m : Transducer σ ι ε) (f : Nat → ι) (a : Nat) (s : σ) (b : Nat) (t : σ) (es : List ε) : Prop where
  le : a ≤ b
  after : m.after s (signal f a (b - a)) = t
  emitted : m.emitted s (signal f a (b - a)) = es

variable {m} {f : Nat → ι} {a b c : Nat} {s t u : σ} {es es' : List ε}

theorem Goes.refl (m : Transducer σ ι ε) (f : Nat → ι) (a : Nat) (s : σ) : m.Goes f a s a s [] :=
  ⟨Nat.le_refl a, by rw [Nat.sub_self]; rfl, by rw [Nat.sub_self]; rfl⟩

theorem Goes.step (m : Transducer σ ι ε) (f : Nat → ι) (a : Nat) (s : σ) :
    m.Goes f a s (a + 1) (m.next s (f (a + 1))) (m.emit s (f (a + 1))) := by
  have hone : signal f a (a + 1 - a) = [f (a + 1)] := by
    rw [Nat.add_sub_cancel_left]
    rfl
  refine ⟨Nat.le_succ a, ?_, ?_⟩ <;> rw [hone]
  · rfl
  · exact List.append_nil _

theorem Goes.trans (h : m.Goes f a s b t es) (h' : m.Goes f b t c u es') : m.Goes f a s c u (es ++ es') := by
  have hle := h.le
  have hle' := h'.le
  have hsplit : signal f a (c - a) = signal f a (b - a) ++ signal f b (c - b) := by
    rw [show c - a = (b - a) + (c - b) by omega, signal_add, Nat.add_sub_cancel' hle]
  refine ⟨Nat.le_trans hle hle', ?_, ?_⟩
  · rw [hsplit, after_append, h.after, h'.after]
  · rw [hsplit, emitted_append, h.emitted, h.after, h'.emitted]

/-- What is emitted up to a later instant. -/
theorem Goes.emitted_to (h : m.Goes f a s b t es) {n : Nat} (hn : b ≤ n) :
    m.emitted s (signal f a (n - a)) = es ++ m.emitted t (signal f b (n - b)) := by
  have hle := h.le
  rw [show n - a = (b - a) + (n - b) by omega, signal_add, Nat.add_sub_cancel' hle, emitted_append, h.emitted, h.after]

/-- What has been emitted by an earlier instant comes first. -/
theorem Goes.emitted_prefix (h : m.Goes f a s b t es) {n : Nat} (hn : a + n ≤ b) :
    m.emitted s (signal f a n) <+: es := by
  rw [← h.emitted, show b - a = n + (b - a - n) by omega, signal_add, emitted_append]
  exact List.prefix_append _ _

end Signal

/-- A machine that decodes each code word alone from the states in `P`, and comes
back to `P`, decodes every concatenation of code words. -/
theorem decodes {μ : Type} {m : Transducer σ ι ε} {P : σ → Prop} {encode : μ → List ι}
    {event : μ → ε}
    (h : ∀ x s, P s → P (m.after s (encode x)) ∧ m.emitted s (encode x) = [event x])
    (xs : List μ) (s : σ) (hs : P s) :
    P (m.after s (xs.flatMap encode)) ∧ m.emitted s (xs.flatMap encode) = xs.map event := by
  induction xs generalizing s with
  | nil => exact ⟨hs, rfl⟩
  | cons x xs ih =>
    obtain ⟨ha, he⟩ := h x s hs
    obtain ⟨ia, ie⟩ := ih _ ha
    rw [List.flatMap_cons, after_append, emitted_append, he, ie]
    exact ⟨ia, rfl⟩

end Transducer
end Glip.Foundation
