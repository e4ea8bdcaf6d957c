import Glip.Foundation.MachineInteger

/-! The loops in which write_stress_test of io_stress_test.c and loopback_measure.c write a transfer in blocks. -/
namespace Glip.StressTest
open Foundation

inductive Tool where
  | ioStressTest
  | loopbackMeasure
  deriving DecidableEq

def Tool.subIdx : Tool → Nat → Int
  | ioStressTest, i => i
  | loopbackMeasure, i => signedOf 32 i

structure WriteRequest where
  start : Int
  length : Nat
  deriving DecidableEq

inductive Ending where
  | done
  | failed
  | waiting
  deriving DecidableEq

/-- A run of the loop: the bytes written at the beginning of each pass, how many more it has written, and its end. -/
structure LoopRun where
  heads : List Nat
  written : Nat
  ending : Ending
  deriving DecidableEq

section
variable (t : Tool) (writeBlockSize transferSize : Nat)

def blockSize (current : Nat) : Nat :=
  if sizeAdd current writeBlockSize > transferSize then sizeSub transferSize current else writeBlockSize

def Tool.request (current : Nat) : WriteRequest :=
  let subIdx := t.subIdx (current % writeBlockSize)
  ⟨subIdx, unsignedOf 64 (blockSize writeBlockSize transferSize current - subIdx)⟩

/-- The loop, from a number of bytes on, with the answers to its requests: how many bytes are accepted, or an error. -/
def writeLoop : Nat → List (Option Nat) → LoopRun
  | current, [] => if current < transferSize then ⟨[current], 0, .waiting⟩ else ⟨[], 0, .done⟩
  | current, answer :: answers =>
    if current < transferSize then
      match answer with
      | none => ⟨[current], 0, .failed⟩
      | some sizeWritten =>
        let rest := writeLoop (sizeAdd current sizeWritten) answers
        ⟨current :: rest.heads, sizeWritten + rest.written, rest.ending⟩
    else ⟨[], 0, .done⟩

def Tool.Answers : Nat → List (Option Nat) → Prop
  | current, some sizeWritten :: answers => current < transferSize →
      sizeWritten ≤ (t.request writeBlockSize transferSize current).length ∧
        Tool.Answers (sizeAdd current sizeWritten) answers
  | _, _ => True

structure GoodRequest (current : Nat) (r : WriteRequest) : Prop where
  start : r.start = (current % writeBlockSize : Nat)
  pos : 1 ≤ r.length
  inside : r.length ≤ min (writeBlockSize - current % writeBlockSize) (transferSize - current)

/-- All requests of a run are good, and at its end the whole transfer is written. -/
structure LoopLaw (run : LoopRun) : Prop where
  requests : ∀ c ∈ run.heads, GoodRequest writeBlockSize transferSize c (t.request writeBlockSize transferSize c)
  written : run.ending = .done → run.written = transferSize

/-- In the last block the offset is less than what remains. When the sum of the loop's condition wraps around,
the block has to end inside the transfer; and the offset has to be an `int` where it is one. -/
structure Tool.Fits (current : Nat) : Prop where
  offset : transferSize < current + writeBlockSize → current + writeBlockSize < 2 ^ 64 →
    current % writeBlockSize < transferSize - current
  wrapped : 2 ^ 64 ≤ current + writeBlockSize →
    writeBlockSize - current % writeBlockSize ≤ transferSize - current
  index : t = .loopbackMeasure → current % writeBlockSize < 2 ^ 31

end

section Loop
variable {t : Tool} {writeBlockSize transferSize current : Nat} {answers : List (Option Nat)}

theorem subIdx_eq_iff (t : Tool) (i : Nat) : t.subIdx i = i ↔ (t = .loopbackMeasure → i < 2 ^ 31) := by
  cases t with
  | ioStressTest => exact iff_of_true rfl nofun
  | loopbackMeasure =>
    have hvalue : Tool.loopbackMeasure.subIdx i = signedOf 32 i := rfl
    rw [hvalue, signedOf_natCast_iff]
    exact ⟨fun h _ => h, fun h => h rfl⟩

/-- The length of a request whose offset is what it should be. -/
theorem request_length (ht : transferSize < 2 ^ 64) (hlt : current < transferSize)
    (hidx : t.subIdx (current % writeBlockSize) = (current % writeBlockSize : Nat)) :
    (t.request writeBlockSize transferSize current).length =
      if transferSize < (current + writeBlockSize) % 2 ^ 64 then
        sizeSub (transferSize - current) (current % writeBlockSize)
      else sizeSub writeBlockSize (current % writeBlockSize) := by
  rw [Tool.request, blockSize, sizeAdd_eq_mod]
  simp only [hidx]
  split
  · rw [sizeSub_eq hlt.le ht, sizeSub]
  · rw [sizeSub]

theorem good_request_iff (hb : writeBlockSize < 2 ^ 64) (ht : transferSize < 2 ^ 64) (hpos : 1 ≤ writeBlockSize)
    (hlt : current < transferSize) :
    GoodRequest writeBlockSize transferSize current (t.request writeBlockSize transferSize current) ↔
      t.Fits writeBlockSize transferSize current := by
  have hmod := Nat.mod_lt current hpos
  have hindex := subIdx_eq_iff t (current % writeBlockSize)
  constructor
  · rintro ⟨hstart, hone, hinside⟩
    have hlength := request_length ht hlt hstart
    refine ⟨fun hlast hsum => ?_, fun hsum => ?_, hindex.mp hstart⟩
    · rw [Nat.mod_eq_of_lt hsum, if_pos hlast] at hlength
      by_contra hge
      obtain heq | hgt := Nat.eq_or_lt_of_le (Nat.le_of_not_lt hge)
      · rw [heq, sizeSub_eq le_rfl (by omega)] at hlength
        omega
      · rw [sizeSub_of_lt hgt (by omega)] at hlength
        omega
    · have hwrap : (current + writeBlockSize) % 2 ^ 64 = current + writeBlockSize - 2 ^ 64 := by omega
      rw [hwrap, if_neg (by omega), sizeSub_eq hmod.le hb] at hlength
      omega
  · rintro ⟨hoffset, hwrapped, hidx⟩
    have hstart := hindex.mpr hidx
    have hlength := request_length ht hlt hstart
    refine ⟨hstart, ?_, ?_⟩ <;> rw [hlength]
    all_goals
      split
      case isTrue hlast =>
        have hsum : current + writeBlockSize < 2 ^ 64 := by omega
        have hless := hoffset (by omega) hsum
        rw [sizeSub_eq hless.le (by omega)]
        omega
      case isFalse =>
        rw [sizeSub_eq hmod.le hb]
        omega

/-- A run from a number of bytes on that is inside the transfer. -/
theorem writeLoop_spec (ht : transferSize < 2 ^ 64)
    (h : t.Answers writeBlockSize transferSize current answers) (hle : current ≤ transferSize)
    (hgood : ∀ c ∈ (writeLoop transferSize current answers).heads,
      GoodRequest writeBlockSize transferSize c (t.request writeBlockSize transferSize c)) :
    (writeLoop transferSize current answers).ending = .done →
      current + (writeLoop transferSize current answers).written = transferSize := by
  induction answers generalizing current with
  | nil =>
    rw [writeLoop]
    split
    · nofun
    · intro
      dsimp only
      omega
  | cons answer answers ih =>
    unfold writeLoop at hgood ⊢
    split at hgood
    · rename_i hlt
      rw [if_pos hlt]
      cases answer with
      | none => nofun
      | some sizeWritten =>
        obtain ⟨hrequested, hrest⟩ := h hlt
        obtain ⟨-, -, hinside⟩ := hgood current (.head _)
        have hadd : sizeAdd current sizeWritten = current + sizeWritten := sizeAdd_eq (by omega)
        dsimp only at hgood ⊢
        rw [hadd] at hrest hgood ⊢
        intro hdone
        have htotal := ih hrest (by omega) (fun c hc => hgood c (.tail _ hc)) hdone
        omega
    · rename_i hge
      rw [if_neg hge]
      intro
      dsimp only
      omega

theorem heads_lt : ∀ c ∈ (writeLoop transferSize current answers).heads, c < transferSize := by
  induction answers generalizing current with
  | nil =>
    rw [writeLoop]
    split
    · simpa
    · nofun
  | cons answer answers ih =>
    unfold writeLoop
    split
    · cases answer with
      | none => simpa
      | some sizeWritten =>
        intro c hc
        obtain rfl | hc := List.mem_cons.mp hc
        · assumption
        · exact ih c hc
    · nofun

instance decidableAnswers (t : Tool) (writeBlockSize transferSize : Nat) : (current : Nat) → (answers : List (Option Nat)) →
    Decidable (t.Answers writeBlockSize transferSize current answers)
  | _, [] => isTrue trivial
  | _, none :: _ => isTrue trivial
  | current, some sizeWritten :: answers =>
    have := decidableAnswers t writeBlockSize transferSize (sizeAdd current sizeWritten) answers
    inferInstanceAs (Decidable (current < transferSize → _ ∧ _))

instance : Decidable (t.Fits writeBlockSize transferSize current) :=
  decidable_of_iff _ ⟨fun ⟨h, h', h''⟩ => ⟨h, h', h''⟩, fun ⟨h, h', h''⟩ => (⟨h, h', h''⟩ : _ ∧ _ ∧ _)⟩

theorem write_loop_iff (hb : writeBlockSize < 2 ^ 64) (ht : transferSize < 2 ^ 64) (hpos : 1 ≤ writeBlockSize)
    (h : t.Answers writeBlockSize transferSize 0 answers) :
    LoopLaw t writeBlockSize transferSize (writeLoop transferSize 0 answers) ↔
      ∀ c ∈ (writeLoop transferSize 0 answers).heads, t.Fits writeBlockSize transferSize c := by
  constructor
  · intro hlaw c hc
    exact (good_request_iff hb ht hpos (heads_lt c hc)).mp (hlaw.requests c hc)
  · intro hfits
    have hgood : ∀ c ∈ (writeLoop transferSize 0 answers).heads,
        GoodRequest writeBlockSize transferSize c (t.request writeBlockSize transferSize c) := fun c hc =>
      (good_request_iff hb ht hpos (heads_lt c hc)).mpr (hfits c hc)
    refine ⟨hgood, fun hdone => ?_⟩
    have htotal := writeLoop_spec ht h (Nat.zero_le _) hgood hdone
    rwa [Nat.zero_add] at htotal

/-- Blocks of four bytes that are accepted in parts, but for the last. -/
theorem write_loop_parts : LoopLaw .loopbackMeasure 4 6 (writeLoop 6 0 [some 1, some 3, some 2]) :=
  (write_loop_iff (by decide) (by decide) (by decide) (by decide)).mpr (by decide)

/-- A last block of which a part is accepted: half of a block of 2 ^ 19 bytes, after which nothing is requested any more,
and two of three bytes, after which more is requested than there is. -/
theorem write_loop_stuck :
    ¬ LoopLaw .ioStressTest (2 ^ 19) (2 ^ 20) (writeLoop (2 ^ 20) 0 [some (2 ^ 19), some (2 ^ 18)]) ∧
      Tool.ioStressTest.request (2 ^ 19) (2 ^ 20) (2 ^ 19 + 2 ^ 18) = ⟨2 ^ 18, 0⟩ ∧
      ¬ LoopLaw .loopbackMeasure 4 7 (writeLoop 7 0 [some 4, some 2]) ∧
      Tool.loopbackMeasure.request 4 7 6 = ⟨2, 2 ^ 64 - 1⟩ := by
  refine ⟨fun h => ?_, by decide, fun h => ?_, by decide⟩
  · exact absurd (h.requests (2 ^ 19 + 2 ^ 18) (by decide)).pos (by decide)
  · exact absurd (h.requests 6 (by decide)).inside (by decide)

end Loop
end Glip.StressTest
