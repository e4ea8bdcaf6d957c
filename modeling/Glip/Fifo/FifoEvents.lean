import Mathlib.Data.List.Basic

/-! The words that go into a FIFO and come out of it. -/
namespace Glip.Fifo
variable {α : Type}

inductive FifoEvent (α : Type) where
  | accepted (word : α)
  | delivered (word : α)

def FifoEvent.acceptedWord : FifoEvent α → Option α
  | accepted word => some word
  | delivered _ => none

def FifoEvent.deliveredWord : FifoEvent α → Option α
  | accepted _ => none
  | delivered word => some word

def acceptedIn (es : List (FifoEvent α)) : List α := es.filterMap FifoEvent.acceptedWord
def deliveredIn (es : List (FifoEvent α)) : List α := es.filterMap FifoEvent.deliveredWord

section Events
variable (a b : List (FifoEvent α)) (words : List α)

@[simp] theorem acceptedIn_append : acceptedIn (a ++ b) = acceptedIn a ++ acceptedIn b := List.filterMap_append
@[simp] theorem deliveredIn_append : deliveredIn (a ++ b) = deliveredIn a ++ deliveredIn b := List.filterMap_append

@[simp] theorem acceptedIn_accepted : acceptedIn (words.map .accepted) = words := by
  simp [acceptedIn, List.filterMap_map, Function.comp_def, FifoEvent.acceptedWord]

@[simp] theorem acceptedIn_delivered : acceptedIn (words.map .delivered) = [] := by
  simp [acceptedIn, List.filterMap_map, Function.comp_def, FifoEvent.acceptedWord]

@[simp] theorem deliveredIn_accepted : deliveredIn (words.map .accepted) = [] := by
  simp [deliveredIn, List.filterMap_map, Function.comp_def, FifoEvent.deliveredWord]

@[simp] theorem deliveredIn_delivered : deliveredIn (words.map .delivered) = words := by
  simp [deliveredIn, List.filterMap_map, Function.comp_def, FifoEvent.deliveredWord]

end Events

end Glip.Fifo
