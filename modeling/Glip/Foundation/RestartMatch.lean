import Mathlib.Algebra.Group.Nat.Even
import Mathlib.Data.List.Induction
import Mathlib.Tactic.Common

/-! A search for a text that keeps only a position in it and starts from the beginning at a mismatch, without
another look at the symbol that did not match. The first symbol of the text is not in the rest of it. -/
namespace Glip.Foundation
variable {α : Type}

structure PartialCopy (text q : List α) : Prop where
  ne_nil : q ≠ []
  prefix_text : q <+: text
  short : q.length < text.length

/-- The number of partial copies at the end of what has been read, one directly behind the other. -/
inductive Copies (text : List α) : List α → Nat → Prop where
  | none (u : List α) : (∀ q, PartialCopy text q → ¬q <:+ u) → Copies text u 0
  | more (u q : List α) (n : Nat) : Copies text u n → PartialCopy text q → Copies text (u ++ q) (n + 1)

section Copies
variable {a : α} {rest q q' u v : List α} {n m : Nat}

private theorem PartialCopy.eq_cons (h : PartialCopy (a :: rest) q) : ∃ q', q = a :: q' ∧ q' <+: rest := by
  cases q with
  | nil => exact (h.ne_nil rfl).elim
  | cons b q =>
    obtain ⟨rfl, hq⟩ := List.cons_prefix_cons.mp h.prefix_text
    exact ⟨q, rfl, hq⟩

private theorem le_of_suffix (ha : a ∉ rest) (h : PartialCopy (a :: rest) q) (h' : PartialCopy (a :: rest) q')
    (hs : q' <:+ q) : q.length ≤ q'.length := by
  obtain ⟨r, rfl, hr⟩ := h.eq_cons
  obtain ⟨r', rfl, -⟩ := h'.eq_cons
  rcases List.suffix_cons_iff.mp hs with heq | hsuff
  · rw [heq]
  · exact (ha (hr.subset (hsuff.subset List.mem_cons_self))).elim

/-- What has been read ends in one partial copy at most. -/
theorem partialCopy_unique (ha : a ∉ rest) (h : PartialCopy (a :: rest) q) (h' : PartialCopy (a :: rest) q')
    (hu : q <:+ u) (hu' : q' <:+ u) : q = q' := by
  rcases List.suffix_or_suffix_of_suffix hu hu' with hs | hs
  · exact hs.eq_of_length (Nat.le_antisymm hs.length_le (le_of_suffix ha h' h hs))
  · exact (hs.eq_of_length (Nat.le_antisymm hs.length_le (le_of_suffix ha h h' hs))).symm

theorem copies_unique (ha : a ∉ rest) (h : Copies (a :: rest) u n) (h' : Copies (a :: rest) u m) : n = m := by
  induction h generalizing m with
  | none u hno =>
    generalize hu : u = w at h'
    cases h' with
    | none => rfl
    | more w q k hc hq =>
      subst hu
      exact (hno q hq (List.suffix_append w q)).elim
  | more u q n hc hq ih =>
    generalize hw : u ++ q = w at h'
    cases h' with
    | none w hno =>
      subst hw
      exact (hno q hq (List.suffix_append u q)).elim
    | more w q' k hc' hq' =>
      have hqq : q = q' :=
        partialCopy_unique ha hq hq' (List.suffix_append u q) (hw ▸ List.suffix_append w q')
      subst hqq
      rw [ih (List.append_cancel_right hw ▸ hc')]

end Copies
section Position
variable {a : α} {rest u v : List α} {f n : Nat}

/-- What a position says of what has been read: the text up to it stands behind an even number of partial copies. -/
structure Placed (text u : List α) (f : Nat) : Prop where
  lt : f < text.length
  copies : ∃ v n, u = v ++ text.take f ∧ Copies text v n ∧ Even n

private theorem partialCopy_take (hf : f ≠ 0) (hlt : f < (a :: rest).length) :
    PartialCopy (a :: rest) ((a :: rest).take f) := by
  refine ⟨?_, List.take_prefix _ _, ?_⟩
  · simp [hf]
  · rw [List.length_take]
    omega

/-- A partial copy that ends in a symbol other than the first goes on from a shorter one. -/
private theorem partialCopy_snoc {c : α} {q : List α} (hc : c ≠ a) (h : PartialCopy (a :: rest) q)
    (hq : q <:+ u ++ [c]) : ∃ r, q = r ++ [c] ∧ PartialCopy (a :: rest) r ∧ r <:+ u := by
  rcases List.eq_nil_or_concat q with rfl | ⟨r, d, rfl⟩
  · exact (h.ne_nil rfl).elim
  · rw [List.concat_eq_append] at h hq ⊢
    obtain ⟨w, hw⟩ := hq
    rw [← List.append_assoc] at hw
    obtain ⟨hu, hd⟩ := List.append_inj' hw rfl
    obtain rfl : d = c := by simpa using hd
    refine ⟨r, rfl, ⟨?_, (List.prefix_append r [d]).trans h.prefix_text, ?_⟩, ⟨w, hu⟩⟩
    · rintro rfl
      obtain ⟨r', hr', -⟩ := h.eq_cons
      exact hc (by simpa using congrArg List.head? hr')
    · have := h.short
      rw [List.length_append] at this
      exact Nat.lt_of_le_of_lt (Nat.le_add_right _ _) this

/-- The symbol at the position is the next one of every longer copy. -/
private theorem getElem?_of_leads {c : α} (hlt : f < (a :: rest).length)
    (h : (a :: rest).take f ++ [c] <+: a :: rest) : (a :: rest)[f]? = some c := by
  obtain ⟨w, hw⟩ := h
  have hlen : ((a :: rest).take f).length = f := List.length_take_of_le (Nat.le_of_lt hlt)
  rw [← hw, List.append_assoc, List.getElem?_append_right (Nat.le_of_eq hlen), hlen, Nat.sub_self]
  rfl

/-- A mismatch leaves an even number of partial copies behind. -/
private theorem copies_of_mismatch (ha : a ∉ rest) {c : α} (hlt : f < (a :: rest).length) (hv : Copies (a :: rest) v n)
    (heven : Even n) (hc : (a :: rest)[f]? ≠ some c) :
    ∃ m, Copies (a :: rest) (v ++ (a :: rest).take f ++ [c]) m ∧ Even m := by
  by_cases hq : ∃ q, PartialCopy (a :: rest) q ∧ q <:+ v ++ (a :: rest).take f ++ [c]
  · obtain ⟨q, hq, hqs⟩ := hq
    by_cases hca : c = a
    · -- the symbol begins a copy that is passed over
      subst hca
      have hf : f ≠ 0 := fun h => hc (by simp [h])
      have hone : PartialCopy (c :: rest) [c] := partialCopy_take (f := 1) Nat.one_ne_zero (by omega)
      exact ⟨n + 1 + 1, .more _ _ _ (.more _ _ _ hv (partialCopy_take hf hlt)) hone, by grind⟩
    · obtain ⟨r, rfl, hr, hrs⟩ := partialCopy_snoc hca hq hqs
      rcases Nat.eq_zero_or_pos f with rfl | hf
      · rw [List.take_zero, List.append_nil] at hrs ⊢
        cases hv with
        | none v hno => exact (hno r hr hrs).elim
        | more w r' k hw hr' =>
          obtain rfl := partialCopy_unique ha hr' hr (List.suffix_append w r') hrs
          exact ⟨k + 1, by rw [List.append_assoc]; exact .more _ _ _ hw hq, heven⟩
      · obtain rfl := partialCopy_unique ha hr (partialCopy_take (Nat.ne_of_gt hf) hlt) hrs (List.suffix_append _ _)
        exact (hc (getElem?_of_leads hlt hq.prefix_text)).elim
  · exact ⟨0, .none _ fun q hq' hqs => hq ⟨q, hq', hqs⟩, Even.zero⟩

/-- The number of partial copies at the end, with the one at the position. -/
private theorem copies_take (hlt : f < (a :: rest).length) (hv : Copies (a :: rest) v n) (heven : Even n) :
    ∃ m, Copies (a :: rest) (v ++ (a :: rest).take f) m ∧ (Even m ↔ f = 0) := by
  rcases Nat.eq_zero_or_pos f with rfl | hf
  · exact ⟨n, by simpa using hv, iff_of_true heven rfl⟩
  · have hf := Nat.ne_of_gt hf
    exact ⟨n + 1, .more _ _ _ hv (partialCopy_take hf hlt), iff_of_false (by grind) hf⟩

/-- There is only one such position. -/
theorem Placed.unique (ha : a ∉ rest) {g : Nat} (h : Placed (a :: rest) u f) (h' : Placed (a :: rest) u g) : f = g := by
  obtain ⟨hlt, v, n, rfl, hv, hn⟩ := h
  obtain ⟨hlt', w, m, hw, hcw, hm⟩ := h'
  obtain ⟨k, hk, hkf⟩ := copies_take hlt hv hn
  obtain ⟨l, hl, hlg⟩ := copies_take hlt' hcw hm
  rw [← hw] at hl
  obtain rfl := copies_unique ha hk hl
  by_cases hf : f = 0
  · exact hf.trans (hlg.mp (hkf.mpr hf)).symm
  · have hg : g ≠ 0 := fun hg => hf (hkf.mp (hlg.mpr hg))
    have htake := partialCopy_unique ha (partialCopy_take hf hlt) (partialCopy_take hg hlt')
      (List.suffix_append v _) (hw ▸ List.suffix_append w _)
    have hlen := congrArg List.length htake
    rw [List.length_take, List.length_take] at hlen
    omega

end Position
section Search
variable [DecidableEq α]

def restart (text : List α) (f : Nat) (c : α) : Nat := if text[f]? = some c then f + 1 else 0

def position (text read : List α) : Nat := read.foldl (restart text) 0

variable {a c : α} {rest u : List α}

theorem position_concat (text : List α) (c : α) : position text (u ++ [c]) = restart text (position text u) c := by
  simp [position]

/-- As long as the search has not come to the end of the text. -/
theorem placed_position (ha : a ∉ rest) (hno : ∀ p, p <+: u → position (a :: rest) p ≠ (a :: rest).length) :
    Placed (a :: rest) u (position (a :: rest) u) := by
  induction u using List.reverseRecOn with
  | nil =>
    refine ⟨Nat.succ_pos _, [], 0, rfl, .none _ fun q hq hs => ?_, Even.zero⟩
    exact hq.ne_nil (List.suffix_nil.mp hs)
  | append_singleton u c ih =>
    obtain ⟨hlt, v, n, hu, hv, heven⟩ := ih fun p hp => hno p (hp.trans (List.prefix_append u [c]))
    have hne := hno _ (List.prefix_refl _)
    rw [position_concat] at hne ⊢
    generalize position (a :: rest) u = f at *
    unfold restart at hne ⊢
    by_cases hc : (a :: rest)[f]? = some c
    · rw [if_pos hc] at hne ⊢
      refine ⟨by omega, v, n, ?_, hv, heven⟩
      rw [hu, List.append_assoc, List.take_add_one, hc]
      rfl
    · rw [if_neg hc]
      obtain ⟨m, hm, heven'⟩ := copies_of_mismatch ha hlt hv heven hc
      exact ⟨Nat.succ_pos _, _, m, by rw [hu, List.take_zero, List.append_nil], hm, heven'⟩

/-- The symbol with which the search first comes to the end of the text completes a copy of it, with an even
number of partial copies directly before it. -/
theorem position_eq_length_iff (ha : a ∉ rest)
    (hno : ∀ p, p <+: u → position (a :: rest) p ≠ (a :: rest).length) :
    position (a :: rest) (u ++ [c]) = (a :: rest).length ↔
      ∃ v n, u ++ [c] = v ++ (a :: rest) ∧ Copies (a :: rest) v n ∧ Even n := by
  have hplaced := placed_position ha hno
  rw [position_concat]
  constructor
  · intro h
    obtain ⟨hlt, v, n, hu, hv, heven⟩ := hplaced
    unfold restart at h
    split at h
    · refine ⟨v, n, ?_, hv, heven⟩
      have htake : (a :: rest).take (position (a :: rest) u + 1) = a :: rest := by rw [h, List.take_length]
      have hsucc := htake
      rw [List.take_add_one, ‹(a :: rest)[_]? = some c›] at hsucc
      calc u ++ [c] = v ++ ((a :: rest).take (position (a :: rest) u) ++ [c]) := by rw [← List.append_assoc, ← hu]
        _ = v ++ (a :: rest) := congrArg (v ++ ·) hsucc
    · cases h
  · rintro ⟨v, n, hu, hv, heven⟩
    obtain ⟨b, d, hbd⟩ : ∃ b d, a :: rest = b ++ [d] := by
      rcases List.eq_nil_or_concat (a :: rest) with h | ⟨b, d, h⟩
      · cases h
      · exact ⟨b, d, by rw [h, List.concat_eq_append]⟩
    have hlen : (a :: rest).length = b.length + 1 := by simp [hbd]
    have hb : (a :: rest).take b.length = b := by simp [hbd]
    rw [hbd, ← List.append_assoc] at hu
    obtain ⟨rfl, hcd⟩ := List.append_inj' hu rfl
    obtain rfl : c = d := by simpa using hcd
    have hat : Placed (a :: rest) (v ++ b) b.length := ⟨by omega, v, n, by rw [hb], hv, heven⟩
    have hget : (a :: rest)[b.length]? = some c := by simp [hbd]
    rw [hplaced.unique ha hat, restart, if_pos hget, hlen]

end Search
end Glip.Foundation
