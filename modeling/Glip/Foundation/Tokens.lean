import Mathlib.Data.List.Basic
import Mathlib.Tactic.Common

/-! The tokens that C's `strtok` finds one after the other in a string. -/
namespace Glip.Foundation
variable {α : Type} [DecidableEq α]

/-- `strtok` with one separator: separators in front are skipped, and what is behind the token and the separator
after it is where the next call goes on. -/
def strtok (sep : α) (s : List α) : Option (List α × List α) :=
  match s.dropWhile (· = sep) with
  | [] => none
  | c :: cs => some (c :: cs.takeWhile (· ≠ sep), (cs.dropWhile (· ≠ sep)).tail)

def pieces (sep : α) (s : List α) : List (List α) := (s.splitOn sep).filter (· ≠ [])

variable {sep : α} {s t rest : List α}

theorem strtok_length (h : strtok sep s = some (t, rest)) : rest.length < s.length := by
  unfold strtok at h
  split at h
  · cases h
  · rename_i c cs hdrop
    simp only [Option.some.injEq, Prod.mk.injEq] at h
    obtain ⟨-, rfl⟩ := h
    have hs : (c :: cs).length ≤ s.length := by
      rw [← hdrop]
      exact (List.dropWhile_suffix _).length_le
    have htail := (List.dropWhile_suffix (l := cs) (· ≠ sep)).length_le
    simp only [List.length_cons, List.length_tail] at hs ⊢
    omega

@[simp] theorem pieces_nil (sep : α) : pieces sep [] = [] := by
  simp [pieces]

theorem pieces_append_cons (s t : List α) : pieces sep (s ++ sep :: t) = pieces sep s ++ pieces sep t := by
  rw [pieces, List.splitOn_append_cons_self, List.filter_append]
  rfl

theorem pieces_cons_self (s : List α) : pieces sep (sep :: s) = pieces sep s := by
  simpa using @pieces_append_cons _ _ sep [] s

theorem pieces_of_not_mem (h : sep ∉ s) (hne : s ≠ []) : pieces sep s = [s] := by
  rw [pieces, List.splitOn_eq_singleton h]
  simp [hne]

theorem pieces_dropWhile (s : List α) : pieces sep (s.dropWhile (· = sep)) = pieces sep s := by
  induction s with
  | nil => rfl
  | cons c s ih =>
    by_cases hc : c = sep
    · rw [List.dropWhile_cons_of_pos (by simpa using hc), ih, hc, pieces_cons_self]
    · rw [List.dropWhile_cons_of_neg (by simpa using hc)]

/-- A token is the first piece, and the other pieces are found behind it. -/
theorem pieces_eq_strtok (sep : α) (s : List α) : pieces sep s = match strtok sep s with
    | none => []
    | some (t, rest) => t :: pieces sep rest := by
  rw [← pieces_dropWhile, strtok]
  cases hdrop : s.dropWhile (· = sep) with
  | nil => exact pieces_nil sep
  | cons c cs =>
    have hc : c ≠ sep := by
      have hhead := List.head?_dropWhile_not (· = sep) s
      rw [hdrop] at hhead
      simpa using hhead
    have htoken : sep ∉ c :: cs.takeWhile (· ≠ sep) := by
      have hall := List.all_takeWhile (p := (· ≠ sep)) (l := cs)
      rw [List.mem_cons, not_or]
      refine ⟨hc.symm, fun hmem => ?_⟩
      have := List.all_eq_true.mp hall sep hmem
      simp at this
    -- the token reaches to the end of the string or to the next separator
    dsimp only
    cases hrest : cs.dropWhile (· ≠ sep) with
    | nil =>
      have hall : cs.takeWhile (· ≠ sep) = cs := by
        have hsplit := List.takeWhile_append_dropWhile (p := (· ≠ sep)) (l := cs)
        rwa [hrest, List.append_nil] at hsplit
      rw [hall] at htoken ⊢
      rw [pieces_of_not_mem htoken (List.cons_ne_nil c cs), List.tail_nil, pieces_nil]
    | cons d ds =>
      have hd : d = sep := by
        have hhead := List.head?_dropWhile_not (· ≠ sep) cs
        rw [hrest] at hhead
        simpa using hhead
      subst hd
      have hsplit : c :: cs = (c :: cs.takeWhile (· ≠ d)) ++ d :: ds := by
        rw [List.cons_append, ← hrest, List.takeWhile_append_dropWhile]
      rw [hsplit, pieces_append_cons, pieces_of_not_mem htoken (List.cons_ne_nil _ _)]
      rfl

/-- The pieces of a string that is joined from tokens. -/
theorem pieces_intercalate {ts : List (List α)} (hsep : ∀ t ∈ ts, sep ∉ t) (hne : ∀ t ∈ ts, t ≠ []) :
    pieces sep ([sep].intercalate ts) = ts := by
  cases ts with
  | nil => simp [pieces]
  | cons t ts =>
    rw [pieces, List.splitOn_intercalate sep hsep (List.cons_ne_nil t ts), List.filter_eq_self]
    simpa using hne

end Glip.Foundation
