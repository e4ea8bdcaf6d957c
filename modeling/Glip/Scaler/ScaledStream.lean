import Glip.Foundation.Transducer
import Glip.Scaler.Downscale
import Glip.Scaler.Upscale

/-! The words that go through the scalers of factor two, one after the other and together. -/
namespace Glip.Scaler
open Glip.Foundation
variable {n : Nat}

structure Cycle (width : Nat) where
  inValid : Bool
  outReady : Bool
  inData : BitVec width

def Downscale.ins (inSize : Nat) : Transducer (Downscale n) (Cycle inSize) (BitVec inSize) where
  next s c := s.next false c.inValid c.outReady c.inData
  emit s c := s.takes c.inValid c.outReady c.inData

def Downscale.outs (inSize : Nat) : Transducer (Downscale n) (Cycle inSize) (BitVec n) where
  next s c := s.next false c.inValid c.outReady c.inData
  emit s c := s.gives c.inValid c.outReady c.inData

def Upscale.ins (outSize : Nat) : Transducer (Upscale n) (Cycle n) (BitVec n) where
  next s c := s.next outSize false c.inValid c.outReady c.inData
  emit s c := s.takes outSize c.inValid c.outReady c.inData

def Upscale.outs (outSize : Nat) : Transducer (Upscale n) (Cycle n) (BitVec outSize) where
  next s c := s.next outSize false c.inValid c.outReady c.inData
  emit s c := s.gives c.inValid c.outReady c.inData

def high (word : BitVec (2 * n)) : BitVec n := word.extractLsb' n n
def low (word : BitVec (2 * n)) : BitVec n := word.setWidth n
def join (upper lower : BitVec n) : BitVec (2 * n) := (upper ++ lower).setWidth (2 * n)

def pairs : List (BitVec n) → List (BitVec (2 * n))
  | upper :: lower :: words => join upper lower :: pairs words
  | _ => []

def halves (word : BitVec (2 * n)) : List (BitVec n) := [high word, low word]

theorem join_high_low (word : BitVec (2 * n)) : join (high word) (low word) = word := by
  apply BitVec.eq_of_getLsbD_eq
  intro i hi
  simp only [join, high, low, BitVec.getLsbD_setWidth, BitVec.getLsbD_append, BitVec.getLsbD_extractLsb']
  by_cases hl : i < n
  · simp [hl, hi]
  · rw [show n + (i - n) = i by omega]
    simp [hl, hi, show i - n < n by omega]

theorem high_join (upper lower : BitVec n) : high (join upper lower) = upper := by
  apply BitVec.eq_of_getLsbD_eq
  intro i hi
  simp only [join, high, BitVec.getLsbD_extractLsb', BitVec.getLsbD_setWidth, BitVec.getLsbD_append]
  simp [hi, show n + i < 2 * n by omega]

theorem low_join (upper lower : BitVec n) : low (join upper lower) = lower := by
  apply BitVec.eq_of_getLsbD_eq
  intro i hi
  simp only [join, low, BitVec.getLsbD_setWidth, BitVec.getLsbD_append]
  simp [hi, show i < 2 * n by omega]

/-- The words in come two for each word out, but for the one that still waits for its second. -/
theorem pairs_flatMap_halves (words : List (BitVec (2 * n))) (kept : List (BitVec n)) (hk : kept.length ≤ 1) :
    pairs (words.flatMap halves ++ kept) = words := by
  induction words with
  | nil =>
    match kept, hk with
    | [], _ => rfl
    | [_], _ => rfl
  | cons word words ih =>
    rw [List.flatMap_cons, halves, List.append_assoc]
    change join (high word) (low word) :: pairs (words.flatMap halves ++ kept) = word :: words
    rw [join_high_low, ih]

section Halved
variable (hn : 0 < n)
include hn

private theorem parts_eq_halves (word : BitVec (2 * n)) : parts n word = halves word := by
  simp [parts, halves, high, low, show n ≠ 2 * n by omega]

theorem Downscale.conserves (s : Downscale n) (cycles : List (Cycle (2 * n))) :
    (Downscale.outs (2 * n)).emitted s cycles ++ ((Downscale.outs (2 * n)).after s cycles).kept (2 * n) =
      s.kept (2 * n) ++ ((Downscale.ins (2 * n)).emitted s cycles).flatMap halves := by
  have h := Transducer.conserves (r := Downscale.ins (2 * n)) (w := Downscale.outs (n := n) (2 * n))
    (P := fun _ => True) (k := (·.kept (2 * n))) (f := halves) (g := fun word => [word]) rfl
    (fun _ _ _ => trivial) (fun s c _ => ?_) cycles s trivial
  · simpa using h.2
  · have hstep := s.kept_next c.inValid c.outReady c.inData
    rw [List.flatMap_congr fun word _ => parts_eq_halves hn word] at hstep
    simpa [outs, ins] using hstep

/-- The second half comes out in the cycle in which the word goes in, or waits in the register. -/
theorem Upscale.kept_next (s : Upscale n) (inValid outReady : Bool) (inData : BitVec n) :
    (s.gives inValid outReady inData).flatMap halves ++ (s.next (2 * n) false inValid outReady inData).kept =
      s.kept ++ s.takes (2 * n) inValid outReady inData := by
  obtain ⟨scale, upper⟩ := s
  have hsize : 2 * n ≠ n := by omega
  have hjoin : halves (join upper inData) = [upper, inData] := by rw [halves, high_join, low_join]
  simp only [join] at hjoin
  cases scale <;> cases inValid <;> cases outReady <;>
    simp [gives, takes, kept, outValid, inReady, outData, next, hsize, hjoin]

theorem Upscale.conserves (s : Upscale n) (cycles : List (Cycle n)) :
    ((Upscale.outs (2 * n)).emitted s cycles).flatMap halves ++ ((Upscale.outs (2 * n)).after s cycles).kept =
      s.kept ++ (Upscale.ins (2 * n)).emitted s cycles := by
  have h := Transducer.conserves (r := Upscale.ins (2 * n)) (w := Upscale.outs (n := n) (2 * n))
    (P := fun _ => True) (k := (·.kept)) (f := fun word => [word]) (g := halves) rfl
    (fun _ _ _ => trivial) (fun s c _ => ?_) cycles s trivial
  · simpa using h.2
  · simpa [outs, ins] using Upscale.kept_next hn s c.inValid c.outReady c.inData

end Halved

structure Scalers (n : Nat) where
  downscale : Downscale n
  upscale : Upscale n

namespace Scalers
variable (s : Scalers n)

def between (c : Cycle (2 * n)) : Cycle n where
  inValid := s.downscale.outValid (2 * n) c.inValid
  outReady := c.outReady
  inData := s.downscale.outData c.inData

def downReady (c : Cycle (2 * n)) : Bool := s.upscale.inReady (2 * n) c.outReady

def next (rst : Bool) (c : Cycle (2 * n)) : Scalers n where
  downscale := s.downscale.next rst c.inValid (s.downReady c) c.inData
  upscale := s.upscale.next (2 * n) rst (s.between c).inValid c.outReady (s.between c).inData

def takes (c : Cycle (2 * n)) : List (BitVec (2 * n)) := s.downscale.takes c.inValid (s.downReady c) c.inData

def gives (c : Cycle (2 * n)) : List (BitVec (2 * n)) :=
  s.upscale.gives (s.between c).inValid c.outReady (s.between c).inData

def ins : Transducer (Scalers n) (Cycle (2 * n)) (BitVec (2 * n)) := ⟨fun s c => s.next false c, fun s c => s.takes c⟩
def outs : Transducer (Scalers n) (Cycle (2 * n)) (BitVec (2 * n)) := ⟨fun s c => s.next false c, fun s c => s.gives c⟩

/-- The word between the two, of which the upper half has moved on already. -/
def inFlight : List (BitVec (2 * n)) :=
  if s.upscale.scale then [join s.upscale.upper s.downscale.lower] else []

def InStep : Prop := s.downscale.scale = s.upscale.scale

variable {s} (hn : 0 < n)
include hn

theorem InStep.next (h : s.InStep) (c : Cycle (2 * n)) : (s.next false c).InStep := by
  obtain ⟨⟨scale, lower⟩, ⟨_, upper⟩⟩ := s
  cases h
  have hdown : n ≠ 2 * n := by omega
  have hup : 2 * n ≠ n := by omega
  obtain ⟨inValid, outReady, inData⟩ := c
  cases scale <;> cases inValid <;> cases outReady <;>
    simp [Scalers.next, InStep, between, downReady, Downscale.next, Upscale.next, Downscale.outValid,
      Downscale.inReady, Upscale.inReady, hdown, hup]

/-- The cycle that takes a word in moves its upper half on, and the next word has to
wait for its lower half. -/
theorem InStep.inFlight_next (h : s.InStep) (c : Cycle (2 * n)) :
    s.gives c ++ (s.next false c).inFlight = s.inFlight ++ s.takes c := by
  obtain ⟨⟨scale, lower⟩, ⟨_, upper⟩⟩ := s
  cases h
  have hdown : n ≠ 2 * n := by omega
  have hup : 2 * n ≠ n := by omega
  obtain ⟨inValid, outReady, inData⟩ := c
  have hjoin := join_high_low inData
  simp only [join, high, low] at hjoin
  cases scale <;> cases inValid <;> cases outReady <;>
    simp [gives, takes, inFlight, Scalers.next, between, downReady, Downscale.next, Upscale.next,
      Downscale.outValid, Downscale.inReady, Downscale.outData, Downscale.takes, Upscale.inReady, Upscale.outValid,
      Upscale.gives, Upscale.outData, join, hdown, hup, hjoin]

theorem InStep.conserves (h : s.InStep) (cycles : List (Cycle (2 * n))) :
    (outs.after s cycles).InStep ∧
      outs.emitted s cycles ++ (outs.after s cycles).inFlight = s.inFlight ++ ins.emitted s cycles := by
  have hrun := Transducer.conserves (r := ins) (w := outs) (P := InStep) (k := inFlight)
    (f := fun word : BitVec (2 * n) => [word]) (g := fun word => [word]) rfl (fun s c hs => hs.next hn c)
    (fun s c hs => ?_) cycles s h
  · simpa using hrun
  · simpa [outs, ins] using hs.inFlight_next hn c

theorem InStep.gives_inFlight (h : s.InStep) {c : Cycle (2 * n)} (hc : c.outReady = true) :
    s.inFlight <+: s.gives c := by
  obtain ⟨⟨scale, lower⟩, ⟨_, upper⟩⟩ := s
  cases h
  have hdown : n ≠ 2 * n := by omega
  have hup : 2 * n ≠ n := by omega
  cases scale <;>
    simp [inFlight, gives, between, Upscale.gives, Upscale.outValid, Upscale.outData, Downscale.outValid,
      Downscale.outData, join, hdown, hup, hc]

end Scalers

theorem Downscale.gives_kept (hn : 0 < n) (s : Downscale n) {c : Cycle (2 * n)} (hc : c.outReady = true) :
    s.kept (2 * n) <+: s.gives c.inValid c.outReady c.inData := by
  obtain ⟨scale, lower⟩ := s
  have hsize : n ≠ 2 * n := by omega
  cases scale <;> simp [kept, gives, outValid, outData, hsize, hc]

/-- Words go through unchanged where the two sizes are the same. -/
theorem sameSize_passes (d : Downscale n) (u : Upscale n) (c : Cycle n) :
    d.gives c.inValid c.outReady c.inData = d.takes c.inValid c.outReady c.inData ∧
      u.gives c.inValid c.outReady c.inData = u.takes n c.inValid c.outReady c.inData := by
  simp [Downscale.gives, Downscale.takes, Upscale.gives, Upscale.takes, Downscale.outValid, Downscale.inReady,
    Downscale.outData, Upscale.outValid, Upscale.inReady, Upscale.outData]

/-- After a reset cycle, with any cycles to follow: the parts of the words that went into
`glip_downscale` come out of it in order, the words out of `glip_upscale` are the pairs of those in,
and both together give the words that went in. What is on the way leaves with the next ready cycle. -/
theorem words_scaled (hn : 0 < n) :
    (∀ (s₀ : Downscale n) (r : Cycle (2 * n)) (cycles : List (Cycle (2 * n))),
      let s := s₀.next true r.inValid r.outReady r.inData
      (Downscale.outs (2 * n)).emitted s cycles ++ ((Downscale.outs (2 * n)).after s cycles).kept (2 * n) =
          ((Downscale.ins (2 * n)).emitted s cycles).flatMap halves ∧
        ∀ c : Cycle (2 * n), c.outReady = true → ((Downscale.ins (2 * n)).emitted s cycles).flatMap halves <+:
          (Downscale.outs (2 * n)).emitted s (cycles ++ [c])) ∧
    (∀ (s₀ : Upscale n) (r : Cycle n) (cycles : List (Cycle n)),
      let s := s₀.next (2 * n) true r.inValid r.outReady r.inData
      (Upscale.outs (2 * n)).emitted s cycles = pairs ((Upscale.ins (2 * n)).emitted s cycles)) ∧
    ∀ (s₀ : Scalers n) (r : Cycle (2 * n)) (cycles : List (Cycle (2 * n))),
      let s := s₀.next true r
      Scalers.outs.emitted s cycles ++ (Scalers.outs.after s cycles).inFlight = Scalers.ins.emitted s cycles ∧
        ∀ c : Cycle (2 * n), c.outReady = true →
          Scalers.ins.emitted s cycles <+: Scalers.outs.emitted s (cycles ++ [c]) := by
  have hdown : n ≠ 2 * n := by omega
  have hup : 2 * n ≠ n := by omega
  refine ⟨?_, ?_, ?_⟩ <;> intro s₀ r cycles s
  · have hs : s.kept (2 * n) = [] := by simp [s, Downscale.next, Downscale.kept, hdown]
    have hall := Downscale.conserves hn s cycles
    rw [hs, List.nil_append] at hall
    refine ⟨hall, fun c hc => ?_⟩
    rw [← hall, Transducer.emitted_append, List.prefix_append_right_inj, Transducer.emitted_cons,
      Transducer.emitted_nil, List.append_nil]
    exact Downscale.gives_kept hn _ hc
  · have hs : s.kept = [] := by simp [s, Upscale.next, Upscale.kept, hup]
    have hall := Upscale.conserves hn s cycles
    rw [hs, List.nil_append] at hall
    rw [← hall, pairs_flatMap_halves]
    unfold Upscale.kept
    split <;> simp
  · have hstep : s.InStep := by simp [s, Scalers.next, Scalers.InStep, Downscale.next, Upscale.next, hdown, hup]
    have hs : s.inFlight = [] := by simp [s, Scalers.next, Scalers.inFlight, Upscale.next, hup]
    obtain ⟨hafter, hall⟩ := hstep.conserves hn cycles
    rw [hs, List.nil_append] at hall
    refine ⟨hall, fun c hc => ?_⟩
    rw [← hall, Transducer.emitted_append, List.prefix_append_right_inj, Transducer.emitted_cons,
      Transducer.emitted_nil, List.append_nil]
    exact hafter.gives_inFlight hn hc

theorem words_scaled_stalled :
    Scalers.ins.emitted ((⟨⟨true, 0⟩, ⟨false, 0⟩⟩ : Scalers 8).next true ⟨false, false, 0⟩)
        [⟨true, true, 0xBEEF⟩, ⟨true, false, 0x1234⟩] <+:
      Scalers.outs.emitted ((⟨⟨true, 0⟩, ⟨false, 0⟩⟩ : Scalers 8).next true ⟨false, false, 0⟩)
        ([⟨true, true, 0xBEEF⟩, ⟨true, false, 0x1234⟩] ++ [⟨false, true, 0⟩]) :=
  ((words_scaled (by decide)).2.2 _ _ _).2 ⟨false, true, 0⟩ rfl

end Glip.Scaler
