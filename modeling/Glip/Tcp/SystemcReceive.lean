import Mathlib.Tactic.Common
import Glip.Tcp.SystemcHandshake

/-! The words that the data thread makes of the chunks of the stream. -/
namespace Glip.Tcp
open Foundation

def bePairs : List Byte → List Word
  | b :: b' :: bytes => (b ++ b') :: bePairs bytes
  | _ => []

def chunksOf (steps : List SystemcStep) : List (List Byte) := steps.filterMap fun | .recv chunk => some chunk | _ => none

def SameBytes : List Byte → Prop
  | b :: b' :: bytes => b = b' ∧ SameBytes bytes
  | _ => True

def EverySecond (x : Byte) : List Byte → Prop
  | _ :: b :: bytes => b = x ∧ EverySecond x bytes
  | _ => True

def leftover : List Byte → Option Byte
  | _ :: _ :: chunk => leftover chunk
  | [b] => some b
  | [] => none

/-- Chunks for which the order of the bytes and the cuts do not matter: the two bytes of each pair are the same up to
the end of the first chunk of an odd length; behind it no other has an odd length, and every second byte is the one
that was left over. -/
def Matches : Option Byte → List (List Byte) → Prop
  | _, [] => True
  | none, chunk :: chunks => SameBytes chunk ∧ Matches (leftover chunk) chunks
  | some x, chunk :: chunks => leftover chunk = none ∧ EverySecond x chunk ∧ Matches (some x) chunks

theorem swapped_iff (b b' : Byte) : (b' ++ b : Word) = b ++ b' ↔ b = b' := by
  rw [append_eq_append_iff]
  constructor
  · exact And.right
  · rintro rfl
    exact ⟨rfl, rfl⟩

theorem shifted_iff (x b b' : Byte) : (b' ++ b : Word) = x ++ b ↔ b' = x := by
  rw [append_eq_append_iff, and_iff_left rfl]

/-- A chunk at a word boundary. -/
theorem aligned_iff (chunk : List Byte) (words : List Word) (rest : List Byte) :
    chunkWords chunk ++ words = bePairs (chunk ++ rest) ↔
      SameBytes chunk ∧ words = bePairs ((leftover chunk).toList ++ rest) := by
  induction chunk using leftover.induct with
  | case1 b b' chunk ih =>
    have hcons : chunkWords (b :: b' :: chunk) ++ words = bePairs (b :: b' :: chunk ++ rest) ↔
        (b' ++ b : Word) = b ++ b' ∧ chunkWords chunk ++ words = bePairs (chunk ++ rest) := List.cons_eq_cons
    rw [hcons, swapped_iff, ih, SameBytes, leftover, and_assoc]
  | case2 b => exact (and_iff_right trivial).symm
  | case3 => exact (and_iff_right trivial).symm

/-- A chunk behind a byte that is left over. -/
theorem shifted_chunk_iff (chunk : List Byte) (x : Byte) (words : List Word) (rest : List Byte) :
    chunkWords chunk ++ words = bePairs (x :: (chunk ++ rest)) ↔
      EverySecond x chunk ∧ words = bePairs (x :: ((leftover chunk).toList ++ rest)) := by
  induction chunk using leftover.induct generalizing x with
  | case1 b b' chunk ih =>
    have hcons : chunkWords (b :: b' :: chunk) ++ words = bePairs (x :: (b :: b' :: chunk ++ rest)) ↔
        (b' ++ b : Word) = x ++ b ∧ chunkWords chunk ++ words = bePairs (b' :: (chunk ++ rest)) := List.cons_eq_cons
    rw [hcons, shifted_iff, EverySecond, leftover, and_assoc, ih b']
    constructor
    · rintro ⟨rfl, hrest⟩
      exact ⟨rfl, hrest⟩
    · rintro ⟨rfl, hrest⟩
      exact ⟨rfl, hrest⟩
  | case2 b => exact (and_iff_right trivial).symm
  | case3 => exact (and_iff_right trivial).symm

section Lengths

theorem length_chunkWords_le (chunk : List Byte) : 2 * (chunkWords chunk).length ≤ chunk.length := by
  induction chunk using leftover.induct with
  | case1 b b' chunk ih =>
    rw [chunkWords, List.length_cons, List.length_cons, List.length_cons]
    omega
  | case2 b => exact Nat.zero_le _
  | case3 => exact Nat.le_refl _

theorem length_flatMap_chunkWords_le (chunks : List (List Byte)) :
    2 * (chunks.flatMap chunkWords).length ≤ chunks.flatten.length := by
  induction chunks with
  | nil => exact Nat.le_refl _
  | cons chunk chunks ih =>
    rw [List.flatMap_cons, List.flatten_cons, List.length_append, List.length_append, Nat.mul_add]
    exact Nat.add_le_add (length_chunkWords_le chunk) ih

theorem length_bePairs (bytes : List Byte) : bytes.length ≤ 2 * (bePairs bytes).length + 1 := by
  induction bytes using leftover.induct with
  | case1 b b' bytes ih =>
    rw [bePairs, List.length_cons, List.length_cons, List.length_cons]
    omega
  | case2 b => exact Nat.le_refl _
  | case3 => exact Nat.zero_le _

end Lengths

/-- The words of the chunks are the big-endian words exactly for chunks that match. -/
theorem flatMap_chunkWords_iff (chunks : List (List Byte)) (left : Option Byte) :
    chunks.flatMap chunkWords = bePairs (left.toList ++ chunks.flatten) ↔ Matches left chunks := by
  induction chunks generalizing left with
  | nil => cases left <;> exact ⟨fun _ => trivial, fun _ => rfl⟩
  | cons chunk chunks ih =>
    rw [List.flatMap_cons, List.flatten_cons]
    cases left with
    | none => exact (aligned_iff chunk _ _).trans (and_congr_right fun _ => ih (leftover chunk))
    | some x =>
      apply (shifted_chunk_iff chunk x _ _).trans
      rw [Matches]
      cases hleft : leftover chunk with
      | none =>
        rw [eq_self_iff_true, true_and]
        exact and_congr_right fun _ => ih (some x)
      | some y =>
        -- two bytes that are left over are a word that is missing
        have hlong : ¬ chunks.flatMap chunkWords = bePairs (x :: ([y] ++ chunks.flatten)) := by
          intro heq
          have hlen := congrArg List.length heq
          have hwords := length_flatMap_chunkWords_le chunks
          have hpairs := length_bePairs chunks.flatten
          rw [List.singleton_append, bePairs, List.length_cons] at hlen
          omega
        constructor
        · rintro ⟨_, heq⟩
          exact absurd heq hlong
        · rintro ⟨hnone, _⟩
          exact absurd hnone (Option.some_ne_none y)

theorem receivedWords_run (steps : List SystemcStep) (p : SystemcToplevel × Shown) :
    receivedWords (systemcRun.emitted p steps) = (chunksOf steps).flatMap chunkWords := by
  induction steps generalizing p with
  | nil => rfl
  | cons e steps ih =>
    have hcons : receivedWords (systemcRun.emitted p (e :: steps)) =
        receivedWords (p.1.step e).2 ++ receivedWords (systemcRun.emitted (systemcRun.next p e) steps) :=
      List.filterMap_append
    rw [hcons, ih]
    cases e with
    | clk i =>
      rw [receivedWords_clk]
      rfl
    | recv chunk =>
      rw [receivedWords_recv]
      rfl
    | send => rfl

/-- In a run of the module the words that are put into the input queue are those of the stream exactly if its chunks
match. -/
theorem receive_iff (p : SystemcToplevel × Shown) (steps : List SystemcStep) :
    receivedWords (systemcRun.emitted p steps) = bePairs (chunksOf steps).flatten ↔ Matches none (chunksOf steps) := by
  rw [receivedWords_run]
  exact flatMap_chunkWords_iff (chunksOf steps) none

/-- The bytes `12 34` are read as the word `0x3412`. -/
theorem receive_swaps : ¬ receivedWords (systemcRun.emitted (twoWords, .nothing) [.recv [0x12, 0x34]]) =
    bePairs (chunksOf [.recv [0x12, 0x34]]).flatten := by
  decide

end Glip.Tcp
