import Mathlib.Data.List.GetD
import Mathlib.Data.Nat.ModEq
import Mathlib.Tactic.Common

/-! Windows of a ring: `n` consecutive cells of `f`, starting at position `pos`,
where positions count on past the end and cells are taken modulo the size `N`. -/
namespace Glip.Foundation
variable {α : Type} {f g : Nat → α} {N : Nat}

def segment (f : Nat → α) (off n : Nat) : List α := (List.range n).map fun i => f (off + i)

def window (f : Nat → α) (N pos n : Nat) : List α := segment (fun j => f (j % N)) pos n

/-- The cells from `pos` on replaced by a list, in the ring of size `N`. -/
def place (f : Nat → α) (N pos : Nat) (bs : List α) (j : Nat) : α :=
  bs.getD ((j + N - pos % N) % N) (f j)

@[simp] theorem segment_length (f : Nat → α) (off n : Nat) : (segment f off n).length = n := by
  simp [segment]

@[simp] theorem segment_zero (f : Nat → α) (off : Nat) : segment f off 0 = [] := rfl

theorem segment_getElem (f : Nat → α) (off n i : Nat) (h : i < (segment f off n).length) :
    (segment f off n)[i] = f (off + i) := by
  simp [segment]

theorem segment_add (f : Nat → α) (off m n : Nat) :
    segment f off (m + n) = segment f off m ++ segment f (off + m) n := by
  simp only [segment, List.range_add, List.map_append, List.map_map]
  congr 1
  refine List.map_congr_left fun i _ => ?_
  simp [Nat.add_assoc]

theorem segment_congr {off off' n : Nat} (h : ∀ i < n, f (off + i) = g (off' + i)) :
    segment f off n = segment g off' n :=
  List.map_congr_left fun i hi => h i (List.mem_range.mp hi)

theorem segment_take (f : Nat → α) (off n m : Nat) (h : m ≤ n) :
    (segment f off n).take m = segment f off m := by
  obtain ⟨k, rfl⟩ := Nat.exists_eq_add_of_le h
  rw [segment_add, List.take_left' (by simp)]

theorem segment_drop (f : Nat → α) (off n m : Nat) (h : m ≤ n) :
    (segment f off n).drop m = segment f (off + m) (n - m) := by
  obtain ⟨k, rfl⟩ := Nat.exists_eq_add_of_le h
  rw [segment_add, List.drop_left' (by simp), Nat.add_sub_cancel_left]

@[simp] theorem window_length (f : Nat → α) (N pos n : Nat) : (window f N pos n).length = n := by
  simp [window]

@[simp] theorem window_zero (f : Nat → α) (N pos : Nat) : window f N pos 0 = [] := rfl

theorem window_add (f : Nat → α) (N pos m n : Nat) :
    window f N pos (m + n) = window f N pos m ++ window f N (pos + m) n :=
  segment_add _ pos m n

theorem window_take (f : Nat → α) (N pos n m : Nat) (h : m ≤ n) :
    (window f N pos n).take m = window f N pos m :=
  segment_take _ pos n m h

theorem window_drop (f : Nat → α) (N pos n m : Nat) (h : m ≤ n) :
    (window f N pos n).drop m = window f N (pos + m) (n - m) :=
  segment_drop _ pos n m h

/-- Positions that agree modulo the size, or modulo a multiple of it, name the same window. -/
theorem window_modEq (f : Nat → α) {pos pos' : Nat} (n : Nat) (h : pos ≡ pos' [MOD N]) :
    window f N pos n = window f N pos' n :=
  segment_congr fun i _ => congrArg f (h.add_right i)

theorem window_congr {pos n : Nat} (h : ∀ i < n, f ((pos + i) % N) = g ((pos + i) % N)) :
    window f N pos n = window g N pos n :=
  segment_congr h

/-- A window that does not run past the last cell. -/
theorem window_contiguous (f : Nat → α) {pos n : Nat} (h : pos % N + n ≤ N) :
    window f N pos n = segment f (pos % N) n := by
  rw [← window_modEq f n (Nat.mod_modEq pos N)]
  exact segment_congr fun i hi => congrArg f (Nat.mod_eq_of_lt (by omega))

private theorem ring_distance (pos : Nat) {i : Nat} (hi : i < N) :
    ((pos + i) % N + N - pos % N) % N = i := by
  have hN : 0 < N := by omega
  have hp := Nat.mod_lt pos hN
  have hj := Nat.mod_lt (pos + i) hN
  have hm : (pos + i) % N = (pos % N + i) % N := (Nat.mod_add_mod pos N i).symm
  rcases Nat.lt_or_ge (pos % N + i) N with h | h
  · rw [hm, Nat.mod_eq_of_lt h, show pos % N + i + N - pos % N = i + N by omega, Nat.add_mod_right,
      Nat.mod_eq_of_lt hi]
  · rw [hm, Nat.mod_eq_sub_mod h, Nat.mod_eq_of_lt (show pos % N + i - N < N by omega),
      show pos % N + i - N + N - pos % N = i by omega, Nat.mod_eq_of_lt hi]

theorem place_window_self (f : Nat → α) {pos : Nat} {bs : List α} (h : bs.length ≤ N) :
    window (place f N pos bs) N pos bs.length = bs := by
  refine List.ext_getElem (by simp) fun i hi hi' => ?_
  have hd := ring_distance pos (show i < N by omega)
  simp only [window, segment_getElem, place, hd]
  exact List.getD_eq_getElem _ _ hi'

/-- What is placed right behind a window does not change the window. -/
theorem place_window_before (f : Nat → α) {pos pos' n : Nat} {bs : List α}
    (hp : pos' ≡ pos + n [MOD N]) (h : n + bs.length ≤ N) :
    window (place f N pos' bs) N pos n = window f N pos n := by
  refine window_congr fun i hi => ?_
  have hm : pos' % N = (pos + n) % N := hp
  have hd : ((pos + i) % N + N - pos' % N) % N = i + (N - n) := by
    have he : (pos + n + (i + (N - n))) % N = (pos + i) % N := by
      rw [show pos + n + (i + (N - n)) = pos + i + N by omega, Nat.add_mod_right]
    rw [hm, ← he]
    exact ring_distance _ (by omega)
  simp only [place, hd]
  exact List.getD_eq_default _ _ (by omega)

end Glip.Foundation
