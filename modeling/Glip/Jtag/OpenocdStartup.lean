import Glip.Foundation.RestartMatch
import Mathlib.Data.Nat.Find

/-! How `start_openocd` of backend_jtag.c looks for the text with which OpenOCD reports a device. -/
namespace Glip.Jtag
open Foundation

def searchString : List UInt8 :=
  ['t', 'a', 'p', '/', 'd', 'e', 'v', 'i', 'c', 'e', ' ', 'f', 'o', 'u', 'n', 'd'].map fun c => c.toNat.toUInt8

/-- Reads the bytes that are there, with `f` for the position and `n` bytes read before; where the text is
found, the number of bytes read is given. A byte that is `EOF` as a `char` leaves the inner loop, and the outer
one returns to it at once for the bytes behind it. -/
def readBurst (f n : Nat) : List UInt8 → Nat × Option Nat
  | [] => (f, none)
  | c :: cs =>
    if c = 0xFF then readBurst f (n + 1) cs
    else if restart searchString f c = searchString.length then (restart searchString f c, some (n + 1))
    else readBurst (restart searchString f c) (n + 1) cs

def startOpenocd (f n : Nat) : List (List UInt8) → Option Nat
  | [] => none
  | b :: bs => match readBurst f n b with
    | (_, some m) => some m
    | (f, none) => startOpenocd f (n + b.length) bs

def IsFirst (P : List UInt8 → Prop) (stream : List UInt8) (m : Nat) : Prop :=
  m ≤ stream.length ∧ P (stream.take m) ∧ ∀ k < m, ¬P (stream.take k)

/-- The text ends a beginning of the stream, bytes that are `EOF` as a `char` left out, with an even number of
partial copies of it directly before it. -/
def EndsEvenly (p : List UInt8) : Prop :=
  ∃ v n, p.filter (· ≠ 0xFF) = v ++ searchString ∧ Copies searchString v n ∧ Even n

section Bursts
variable {f n m : Nat} {s p : List UInt8}

theorem readBurst_append (f n : Nat) (a b : List UInt8) :
    readBurst f n (a ++ b) = match readBurst f n a with
      | (f, some m) => (f, some m)
      | (f, none) => readBurst f (n + a.length) b := by
  induction a generalizing f n with
  | nil => rfl
  | cons c a ih =>
    simp only [List.cons_append, readBurst, List.length_cons]
    rw [ih, ih, Nat.add_right_comm, Nat.add_assoc]
    split_ifs <;> rfl

/-- The way in which the stream is cut does not matter. -/
theorem startOpenocd_eq (f n : Nat) (bs : List (List UInt8)) : startOpenocd f n bs = (readBurst f n bs.flatten).2 := by
  induction bs generalizing f n with
  | nil => rfl
  | cons b bs ih =>
    rw [startOpenocd, List.flatten_cons, readBurst_append]
    split <;> simp_all

/-- A result that counts from `n` gives the first beginning with a property, and there is none with no result. -/
def Finds (P : List UInt8 → Prop) (s : List UInt8) (n : Nat) : Option Nat → Prop
  | some m => ∃ k, m = n + k ∧ IsFirst P s k
  | none => ∀ k ≤ s.length, ¬P (s.take k)

theorem finds_cons {P : List UInt8 → Prop} {c : UInt8} {r : Option Nat} (hnil : ¬P [])
    (h : Finds (fun p => P (c :: p)) s (n + 1) r) : Finds P (c :: s) n r := by
  cases r with
  | none =>
    intro k hk
    cases k with
    | zero => exact hnil
    | succ k => exact h k (by simpa using hk)
  | some m =>
    obtain ⟨k, rfl, hk, hP, hfirst⟩ := h
    refine ⟨k + 1, by omega, by simpa using hk, hP, fun j hj => ?_⟩
    cases j with
    | zero => exact hnil
    | succ j => exact hfirst j (by omega)

/-- The search stops with the first byte at which it has come to the end of the text. -/
theorem readBurst_finds (pre : List UInt8) (hf : position searchString (pre.filter (· ≠ 0xFF)) = f)
    (hno : f ≠ searchString.length) :
    Finds (fun p => position searchString ((pre ++ p).filter (· ≠ 0xFF)) = searchString.length) s n
      (readBurst f n s).2 := by
  have hnil : ¬position searchString ((pre ++ []).filter (· ≠ 0xFF)) = searchString.length := by
    rwa [List.append_nil, hf]
  induction s generalizing f n pre with
  | nil =>
    intro k hk
    rw [List.take_nil]
    exact hnil
  | cons c s ih =>
    have hcons : (fun p => position searchString ((pre ++ c :: p).filter (· ≠ 0xFF)) = searchString.length) =
        fun p => position searchString ((pre ++ [c] ++ p).filter (· ≠ 0xFF)) = searchString.length :=
      funext fun p => by rw [List.append_cons]
    simp only [readBurst]
    split
    case isTrue hc =>
      have hskip : (pre ++ [c]).filter (· ≠ 0xFF) = pre.filter (· ≠ 0xFF) := by simp [hc]
      refine finds_cons hnil ?_
      rw [hcons]
      exact ih (pre ++ [c]) (hskip ▸ hf) hno (by rwa [List.append_nil, hskip, hf])
    case isFalse hc =>
      have hread : position searchString ((pre ++ [c]).filter (· ≠ 0xFF)) = restart searchString f c := by
        rw [List.filter_append, show [c].filter (· ≠ 0xFF) = [c] by simp [hc], position_concat, hf]
      split
      case isTrue hend =>
        refine ⟨1, rfl, by simp, ?_, fun k hk => ?_⟩
        · exact hread.trans hend
        · obtain rfl : k = 0 := by omega
          exact hnil
      case isFalse hend =>
        refine finds_cons hnil ?_
        rw [hcons]
        exact ih (pre ++ [c]) hread hend (by rw [List.append_nil, hread]; exact hend)

/-- The search comes to the end of the text where it stands behind an even number of partial copies. -/
theorem position_filter_iff (hno : ∀ q, q <+: p → q ≠ p →
    position searchString (q.filter (· ≠ 0xFF)) ≠ searchString.length) :
    position searchString (p.filter (· ≠ 0xFF)) = searchString.length ↔ EndsEvenly p := by
  have htext : searchString = 0x74 :: searchString.tail := by decide
  have ha : 0x74 ∉ searchString.tail := by decide
  rcases List.eq_nil_or_concat (p.filter (· ≠ 0xFF)) with hnil | ⟨u, c, huc⟩
  · refine iff_of_false (by rw [hnil]; decide) fun ⟨v, n, hv, _⟩ => ?_
    rw [hnil, htext] at hv
    simpa using congrArg List.length hv
  · rw [List.concat_eq_append] at huc
    rw [EndsEvenly, huc, htext]
    refine position_eq_length_iff ha fun q hq => ?_
    obtain ⟨r, hr, rfl⟩ := List.prefix_filter_iff.mp (huc ▸ hq.trans (List.prefix_append u [c]))
    rw [← htext]
    refine hno r hr ?_
    rintro rfl
    rw [huc] at hq
    have := hq.length_le
    rw [List.length_append] at this
    exact absurd this (Nat.not_succ_le_self _)

end Bursts
section First
variable {P Q : List UInt8 → Prop} {s : List UInt8} {m k : Nat}

theorem isFirst_unique (h : IsFirst P s m) (h' : IsFirst P s k) : m = k := by
  rcases Nat.lt_trichotomy m k with hlt | rfl | hlt
  · exact (h'.2.2 m hlt h.2.1).elim
  · rfl
  · exact (h.2.2 k hlt h'.2.1).elim

theorem exists_isFirst (hk : k ≤ s.length) (h : P (s.take k)) : ∃ m, IsFirst P s m := by
  classical
  have hex : ∃ k, k ≤ s.length ∧ P (s.take k) := ⟨k, hk, h⟩
  refine ⟨Nat.find hex, (Nat.find_spec hex).1, (Nat.find_spec hex).2, fun j hj hP => ?_⟩
  exact Nat.find_min hex hj ⟨Nat.le_trans (Nat.le_of_lt hj) (Nat.find_spec hex).1, hP⟩

/-- Two properties that agree as long as the first has not held have the same first beginning. -/
theorem isFirst_congr (h : ∀ k ≤ s.length, (∀ j < k, ¬P (s.take j)) → (P (s.take k) ↔ Q (s.take k))) :
    IsFirst P s m ↔ IsFirst Q s m := by
  have hbefore : ∀ k ≤ s.length + 1, (∀ j < k, ¬P (s.take j)) ↔ ∀ j < k, ¬Q (s.take j) := by
    intro k
    induction k with
    | zero => exact fun _ => iff_of_true nofun nofun
    | succ k ih =>
      intro hk
      rw [Nat.forall_lt_succ_right, Nat.forall_lt_succ_right, ← ih (by omega)]
      exact and_congr_right fun hno => not_congr (h k (by omega) hno)
  refine and_congr_right fun hm => ⟨fun ⟨hP, hno⟩ => ?_, fun ⟨hQ, hno⟩ => ?_⟩
  · exact ⟨(h m hm hno).mp hP, (hbefore m (by omega)).mp hno⟩
  · have hno := (hbefore m (by omega)).mpr hno
    exact ⟨(h m hm hno).mpr hQ, hno⟩

/-- Two properties have the same first beginning if the first with one of them has both. -/
theorem isFirst_iff_isFirst : (∀ m, IsFirst P s m ↔ IsFirst Q s m) ↔
    ∀ m, IsFirst (fun p => P p ∨ Q p) s m → P (s.take m) ∧ Q (s.take m) := by
  constructor
  · rintro h m ⟨hm, hor, hno⟩
    rcases hor with hP | hQ
    · exact ⟨hP, ((h m).mp ⟨hm, hP, fun k hk hPk => hno k hk (.inl hPk)⟩).2.1⟩
    · exact ⟨((h m).mpr ⟨hm, hQ, fun k hk hQk => hno k hk (.inr hQk)⟩).2.1, hQ⟩
  · intro h m
    -- the first beginning with either property has both and is the first with each
    have hboth : ∀ k, k ≤ s.length → P (s.take k) ∨ Q (s.take k) → ∃ j, IsFirst P s j ∧ IsFirst Q s j := by
      intro k hk hor
      obtain ⟨j, hj⟩ := exists_isFirst (P := fun p => P p ∨ Q p) hk hor
      obtain ⟨hP, hQ⟩ := h j hj
      exact ⟨j, ⟨hj.1, hP, fun i hi hPi => hj.2.2 i hi (.inl hPi)⟩, hj.1, hQ, fun i hi hQi => hj.2.2 i hi (.inr hQi)⟩
    constructor
    · intro hP
      obtain ⟨j, hjP, hjQ⟩ := hboth m hP.1 (.inl hP.2.1)
      rwa [isFirst_unique hP hjP]
    · intro hQ
      obtain ⟨j, hjP, hjQ⟩ := hboth m hQ.1 (.inr hQ.2.1)
      rwa [isFirst_unique hQ hjQ]

end First

/-- However the output is cut into bursts, the search stops at the first byte at which the text ends evenly. -/
theorem startOpenocd_eq_some_iff (bs : List (List UInt8)) (m : Nat) :
    startOpenocd 0 0 bs = some m ↔ IsFirst EndsEvenly bs.flatten m := by
  have hfinds : Finds (fun p => position searchString (p.filter (· ≠ 0xFF)) = searchString.length) bs.flatten 0
      (startOpenocd 0 0 bs) := startOpenocd_eq 0 0 bs ▸ readBurst_finds [] rfl (by decide)
  have hfirst : startOpenocd 0 0 bs = some m ↔
      IsFirst (fun p => position searchString (p.filter (· ≠ 0xFF)) = searchString.length) bs.flatten m := by
    cases hr : startOpenocd 0 0 bs with
    | none =>
      rw [hr] at hfinds
      exact iff_of_false nofun fun h => hfinds m h.1 h.2.1
    | some k =>
      rw [hr] at hfinds
      obtain ⟨j, rfl, hj⟩ := hfinds
      rw [Nat.zero_add, Option.some_inj]
      exact ⟨fun h => h ▸ hj, fun h => isFirst_unique hj h⟩
  refine hfirst.trans (isFirst_congr fun k hk hno => position_filter_iff fun q hq hne => ?_)
  have hshort : q.length < k := by
    have hle := hq.length_le
    have hlt := Nat.lt_of_le_of_ne hle fun he => hne (hq.eq_of_length he)
    rw [List.length_take] at hlt
    omega
  rw [List.prefix_iff_eq_take.mp (hq.trans (List.take_prefix k _))]
  exact hno q.length hshort

/-- The search reports success exactly when the text is in the output, and with its last byte, if and only if
where the text first ends, as it is or evenly, it does so in both ways. -/
theorem openocd_detection_iff (bs : List (List UInt8)) :
    (∀ m, startOpenocd 0 0 bs = some m ↔ IsFirst (searchString <:+ ·) bs.flatten m) ↔
      ∀ m, IsFirst (fun p => EndsEvenly p ∨ searchString <:+ p) bs.flatten m →
        EndsEvenly (bs.flatten.take m) ∧ searchString <:+ bs.flatten.take m := by
  rw [← isFirst_iff_isFirst]
  exact forall_congr' fun m => iff_congr (startOpenocd_eq_some_iff bs m) Iff.rfl

/-- A `t` before the text hides it, and a byte `0xFF` inside it is passed over. -/
theorem openocd_detection_fails :
    (startOpenocd 0 0 [0x74 :: searchString] = none ∧ IsFirst (searchString <:+ ·) (0x74 :: searchString) 17) ∧
      startOpenocd 0 0 [searchString.take 4 ++ [0xFF], searchString.drop 4] = some 17 ∧
      ¬searchString <:+: searchString.take 4 ++ [0xFF] ++ searchString.drop 4 := by
  refine ⟨⟨by decide +kernel, by decide, ⟨[0x74], rfl⟩, by decide +kernel⟩, by decide +kernel, by decide +kernel⟩

end Glip.Jtag
