import Mathlib.Tactic.Common

/-! The registers that make a first-word-fall-through FIFO out of a FIFO with a
synchronous read, the same in fifo_singleclock_fwft.sv and fifo_dualclock_fwft.sv. -/
namespace Glip.Fifo

structure Prefetch (α : Type) where
  fifoValid : Bool
  middleValid : Bool
  doutValid : Bool
  middleDout : α
  dout : α

namespace Prefetch
variable {α : Type} (p : Prefetch α) (rdEn fifoEmpty : Bool) (fifoDout : α)

def willUpdateDout : Bool := (p.middleValid || p.fifoValid) && (rdEn || !p.doutValid)

def willUpdateMiddle : Bool := p.fifoValid && (p.middleValid == p.willUpdateDout rdEn)

def fifoRdEn : Bool := !fifoEmpty && !(p.middleValid && p.doutValid && p.fifoValid)

def empty : Bool := !p.doutValid

def next : Prefetch α where
  fifoValid :=
    if p.fifoRdEn fifoEmpty then true
    else if p.willUpdateMiddle rdEn || p.willUpdateDout rdEn then false else p.fifoValid
  middleValid := if p.willUpdateMiddle rdEn then true else if p.willUpdateDout rdEn then false else p.middleValid
  doutValid := if p.willUpdateDout rdEn then true else if rdEn then false else p.doutValid
  middleDout := if p.willUpdateMiddle rdEn then fifoDout else p.middleDout
  dout := if p.willUpdateDout rdEn then if p.middleValid then p.middleDout else fifoDout else p.dout

def reset (zero : α) : Prefetch α := ⟨false, false, false, zero, zero⟩

def contents : List α :=
  (if p.doutValid then [p.dout] else []) ++ (if p.middleValid then [p.middleDout] else []) ++
    if p.fifoValid then [fifoDout] else []

@[simp] theorem contents_reset (zero : α) : (reset zero).contents fifoDout = [] := rfl

def delivers : List α := if rdEn && !p.empty then [p.dout] else []

/-- A cycle takes the words out in their order and puts the one that it reads behind
them; `word` is what the FIFO has on its output after a read. -/
theorem contents_next (word : α) :
    p.delivers rdEn ++
        (p.next rdEn fifoEmpty fifoDout).contents (if p.fifoRdEn fifoEmpty then word else fifoDout) =
      p.contents fifoDout ++ if p.fifoRdEn fifoEmpty then [word] else [] := by
  obtain ⟨fv, mv, dv, middle, dout⟩ := p
  cases fv <;> cases mv <;> cases dv <;> cases rdEn <;> cases fifoEmpty <;> rfl

/-- A word that is not read stays. -/
theorem next_empty (h : p.empty = false) : (p.next false fifoEmpty fifoDout).empty = false := by
  obtain ⟨fv, mv, dv, middle, dout⟩ := p
  cases dv with
  | true => cases hupdate : willUpdateDout ⟨fv, mv, true, middle, dout⟩ false <;> simp [empty, next, hupdate]
  | false => cases h

/-- A FIFO with words has one on the way to the output after the cycle. -/
theorem next_behind (h : fifoEmpty = false) :
    ((p.next rdEn fifoEmpty fifoDout).middleValid || (p.next rdEn fifoEmpty fifoDout).fifoValid) = true := by
  obtain ⟨fv, mv, dv, middle, dout⟩ := p
  cases h
  cases fv <;> cases mv <;> cases dv <;> cases rdEn <;> rfl

/-- The output is without a word only when none was on the way to it. -/
theorem behind_of_next_empty (h : (p.next rdEn fifoEmpty fifoDout).empty = true) :
    p.middleValid = false ∧ p.fifoValid = false := by
  obtain ⟨fv, mv, dv, middle, dout⟩ := p
  cases fv <;> cases mv <;> cases rdEn <;> cases dv <;> first | exact ⟨rfl, rfl⟩ | cases h

/-- Behind an empty FIFO nothing follows. -/
theorem contents_next_empty (h : (p.next rdEn true fifoDout).empty = true) (word : α) :
    (p.next rdEn true fifoDout).contents word = [] := by
  obtain ⟨fv, mv, dv, middle, dout⟩ := p
  cases fv <;> cases mv <;> cases rdEn <;> cases dv <;> first | rfl | cases h

/-- The output is without a word only when everything that was in front of the FIFO two
cycles ago is gone, and then the FIFO was empty. -/
theorem next_next_empty (rdEn₁ rdEn₂ fifoEmpty₁ fifoEmpty₂ : Bool) (dout₁ dout₂ : α)
    (h : ((p.next rdEn₁ fifoEmpty₁ dout₁).next rdEn₂ fifoEmpty₂ dout₂).empty = true) :
    fifoEmpty₁ = true ∧
      (p.next rdEn₁ fifoEmpty₁ dout₁).delivers rdEn₂ = (p.next rdEn₁ fifoEmpty₁ dout₁).contents dout₂ := by
  obtain ⟨fv, mv, dv, middle, dout⟩ := p
  cases fv <;> cases mv <;> cases dv <;> cases rdEn₁ <;> cases fifoEmpty₁ <;> cases rdEn₂ <;> cases fifoEmpty₂ <;>
    first | exact ⟨rfl, rfl⟩ | cases h

end Prefetch
end Glip.Fifo
