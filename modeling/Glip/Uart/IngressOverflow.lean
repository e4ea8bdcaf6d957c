import Glip.Uart.IngressCredit

/-! The credit of the host against the room in `u_ingress_cdc`. -/
namespace Glip.Uart
open Foundation Fifo
variable {W : Nat}

def ioEdges (es : List IngressEdge) : Nat := es.countP fun e => e.1.isSome

def readsOf (s : IngressPath W) : List IngressEdge → Nat
  | [] => 0
  | e :: es => (s.cdc.reads (e.2.map s.cdcRead)).toNat + readsOf (s.next e.1 e.2) es

/-- The user logic keeps up: at most 14 bytes have been decoded beyond those that were read out
of the memory three edges of `clk_io` ago. -/
def KeepsUp (s₀ : IngressPath W) (es : List IngressEdge) : Prop :=
  ∀ k ≤ es.length, ∃ j ≤ k, (j = 0 ∨ 3 ≤ ioEdges ((es.take k).drop j)) ∧
    users ((ingressEdges W).emitted s₀ (es.take k)) ≤ readsOf s₀ (es.take j) + 14

instance (s₀ : IngressPath W) (es : List IngressEdge) : Decidable (KeepsUp s₀ es) :=
  inferInstanceAs (Decidable (∀ k ≤ _, ∃ j ≤ _, _))

def decodedBytes (es : List IngressPathEvent) : List (BitVec 8) := es.filterMap fun | .user b => some b | _ => none
def acceptedBytes (es : List IngressPathEvent) : List (BitVec 8) :=
  es.filterMap fun | .accepted b => some b | _ => none

theorem readsOf_append (s : IngressPath W) (a b : List IngressEdge) :
    readsOf s (a ++ b) = readsOf s a + readsOf ((ingressEdges W).after s a) b := by
  induction a generalizing s with
  | nil => exact (Nat.zero_add _).symm
  | cons e a ih => rw [List.cons_append, readsOf, readsOf, ih, Nat.add_assoc]; rfl

theorem readsOf_singleton (s : IngressPath W) (e : IngressEdge) :
    readsOf s [e] = (s.cdc.reads (e.2.map s.cdcRead)).toNat := rfl

theorem readsOf_take_le (s : IngressPath W) (es : List IngressEdge) (j : Nat) :
    readsOf s (es.take j) ≤ readsOf s es := by
  conv => rhs; rw [← List.take_append_drop j es, readsOf_append]
  exact Nat.le_add_right _ _

theorem ioEdges_append (a b : List IngressEdge) : ioEdges (a ++ b) = ioEdges a + ioEdges b := List.countP_append

theorem ioEdges_singleton (e : IngressEdge) : ioEdges [e] = e.1.isSome.toNat := by
  rw [ioEdges, List.countP_singleton]
  cases e.1 <;> rfl

structure Marked (s₀ : IngressPath W) (es : List IngressEdge) : Prop where
  reset : ((ingressEdges W).after s₀ es).fifoRst = true →
    accepted ((ingressEdges W).emitted s₀ es) = 0 ∧ readsOf s₀ es = 0
  marks : ∃ words wm rm, ((ingressEdges W).after s₀ es).cdc.At words wm rm ∧
    words.length = accepted ((ingressEdges W).emitted s₀ es) ∧ rm.read = readsOf s₀ es ∧
    ∀ j ≤ es.length, wm.Known rm (readsOf s₀ (es.take j)) (ioEdges (es.drop j))

theorem known_zero (wm : WriteMarks) (rm : ReadMarks) (n : Nat) : wm.Known rm 0 n := by
  match n with
  | 0 | 1 | 2 | _ + 3 => exact Nat.zero_le _

/-- One edge more. -/
theorem accepted_snoc (s₀ : IngressPath W) (es : List IngressEdge) (e : IngressEdge) :
    accepted ((ingressEdges W).emitted s₀ (es ++ [e])) =
      accepted ((ingressEdges W).emitted s₀ es) + (((ingressEdges W).after s₀ es).accepts e.1).length := by
  rw [Transducer.emitted_append, accepted_append, Transducer.emitted_cons, Transducer.emitted_nil, List.append_nil,
    IngressPath.accepted_emit]

theorem readsOf_snoc (s₀ : IngressPath W) (es : List IngressEdge) (e : IngressEdge) :
    readsOf s₀ (es ++ [e]) = readsOf s₀ es +
      (((ingressEdges W).after s₀ es).cdc.reads (e.2.map ((ingressEdges W).after s₀ es).cdcRead)).toNat := by
  rw [readsOf_append, readsOf_singleton]

/-- In the reset of the FIFO nothing is accepted or read. -/
theorem Marked.reset_edge {s₀ : IngressPath W} {es : List IngressEdge} (h : Marked s₀ es)
    (hinv : ((ingressEdges W).after s₀ es).Inv) (hr : ((ingressEdges W).after s₀ es).fifoRst = true) (e : IngressEdge) :
    Marked s₀ (es ++ [e]) := by
  obtain ⟨hcdc, hen⟩ := hinv.reset hr
  have hcdc' : ((ingressEdges W).after s₀ (es ++ [e])).cdc.IsReset := by
    rw [Transducer.after_append]
    exact hcdc.next_rst (IngressPath.cdcWrite_rst hr) (IngressPath.cdcRead_rst hr)
  have hnoAccept : accepted ((ingressEdges W).emitted s₀ (es ++ [e])) = 0 := by
    rw [accepted_snoc, (h.reset hr).1, IngressPath.accepts_off hen]
    rfl
  have hnoRead : readsOf s₀ (es ++ [e]) = 0 := by
    rw [readsOf_snoc, (h.reset hr).2, DualClock.reads, Prefetch.fifoRdEn, hcdc.empty, Bool.not_true, Bool.false_and,
      Bool.and_false]
    rfl
  refine ⟨fun _ => ⟨hnoAccept, hnoRead⟩, [], _, _, hcdc'.at (by decide), hnoAccept.symm, hnoRead.symm, ?_⟩
  intro j _
  have hle := readsOf_take_le s₀ (es ++ [e]) j
  rw [hnoRead, Nat.le_zero] at hle
  rw [hle]
  exact known_zero _ _ _

theorem Marked.edge {s₀ : IngressPath W} {es : List IngressEdge} (h : Marked s₀ es)
    (hr : ((ingressEdges W).after s₀ es).fifoRst = false) {e : IngressEdge}
    (he : ((ingressEdges W).after s₀ es).Edge e) : Marked s₀ (es ++ [e]) := by
  obtain ⟨-, words, wm, rm, hat, hlength, hread, hknown⟩ := h
  have hafter : (ingressEdges W).after s₀ (es ++ [e]) = ((ingressEdges W).after s₀ es).next e.1 e.2 :=
    Transducer.after_append ..
  have hnext := congrArg IngressPath.cdc hafter
  simp only [IngressPath.next] at hnext
  obtain ⟨wm', rm', hat', hread', -, hknown', -⟩ :=
    hat.next he.sampled (IngressPath.cdcWrite_rst hr) (IngressPath.cdcRead_rst hr)
  rw [hread, ← readsOf_snoc] at hread'
  refine ⟨fun hrst => ?_, _, wm', rm', hnext ▸ hat', ?_, hread', ?_⟩
  · exact absurd (he.still_reset (hafter ▸ hrst)).1 (by simp [hr])
  · rw [List.length_append, hlength, accepted_snoc]
    rfl
  · intro j hj
    rcases Nat.lt_or_ge es.length j with hlast | hle
    · have hall : (es ++ [e]).length ≤ j := by rwa [List.length_append, List.length_singleton]
      rw [List.take_of_length_le hall, List.drop_of_length_le hall]
      exact Nat.le_of_eq hread'.symm
    · have hstep := hknown' _ _ (hknown j hle)
      rw [Option.isSome_map] at hstep
      rwa [List.take_append_of_le_length hle, List.drop_append_of_le_length hle, ioEdges_append, ioEdges_singleton]

theorem marked_run {s₀ : IngressPath W} (h : s₀.Released) {es : List IngressEdge}
    (hrun : (ingressEdges W).Each IngressPath.Edge s₀ es) : Marked s₀ es := by
  induction es using List.reverseRecOn with
  | nil =>
    have hknown : ∀ j ≤ ([] : List IngressEdge).length,
        WriteMarks.Known ⟨0, 0, 0, 0⟩ ⟨0, 0, 0, 0⟩ (readsOf s₀ (([] : List IngressEdge).take j)) (ioEdges (List.drop j [])) := by
      intro j _
      rw [List.take_nil]
      exact known_zero _ _ _
    exact ⟨fun _ => ⟨rfl, rfl⟩, [], _, _, h.cdc.at (by decide), rfl, rfl, hknown⟩
  | append_singleton es e ih =>
    obtain ⟨hbefore, he, -⟩ := (ingressEdges W).each_append.mp hrun
    cases hr : ((ingressEdges W).after s₀ es).fifoRst with
    | true => exact (ih hbefore).reset_edge (stored_run h hbefore).1 hr e
    | false => exact (ih hbefore).edge hr he

/-- A user logic that keeps up leaves room in the FIFO. -/
theorem not_full_run {s₀ : IngressPath W} (h : s₀.Released) {es : List IngressEdge}
    (hrun : (ingressEdges W).Each IngressPath.Edge s₀ es) (hkeeps : KeepsUp s₀ es) :
    ((ingressEdges W).after s₀ es).cdc.full = false := by
  obtain ⟨-, words, wm, rm, hat, hlength, -, hknown⟩ := marked_run h hrun
  obtain ⟨j, hj, hold, hroom⟩ := hkeeps es.length (Nat.le_refl _)
  obtain ⟨-, -, hle⟩ := stored_run h hrun
  have hwrote := hat.wrote
  have hmark := hknown j hj
  rw [List.take_length] at hold hroom
  have hused : readsOf s₀ (es.take j) ≤ wm.used := by
    rcases hold with rfl | hthree
    · exact Nat.zero_le _
    · obtain ⟨n, hn⟩ := Nat.exists_eq_add_of_le' hthree
      rw [hn] at hmark
      exact hmark
  apply Bool.eq_false_iff.mpr
  intro hfull
  have := hat.wr.full.mp hfull
  omega

theorem KeepsUp.of_append {s₀ : IngressPath W} {a b : List IngressEdge} (h : KeepsUp s₀ (a ++ b)) : KeepsUp s₀ a := by
  intro k hk
  obtain ⟨j, hj, hold, hroom⟩ := h k (by rw [List.length_append]; omega)
  rw [List.take_append_of_le_length hk] at hold hroom
  rw [List.take_append_of_le_length (Nat.le_trans hj hk)] at hroom
  exact ⟨j, hj, hold, hroom⟩

/-- An edge of `clk_io` sends a byte of a credit message at most. -/
theorem length_messageBytes_le {s : IngressPath W} {es : List IngressEdge} :
    (messageBytes (creditEventsOf ((ingressEdges W).emitted s es))).length ≤ ioEdges es := by
  induction es generalizing s with
  | nil => exact Nat.le_refl 0
  | cons e es ih =>
    have ih := ih (s := (ingressEdges W).next s e)
    have hone (c : Control) (i : ControlIn) : (c.sentCredit i).length ≤ 1 := by
      unfold Control.sentCredit
      split
      all_goals first | exact Nat.zero_le 1 | (split <;> simp)
    have hcount : ioEdges (e :: es) = ioEdges es + e.1.isSome.toNat := by
      rw [ioEdges, ioEdges, List.countP_cons]
      cases e.1 <;> rfl
    rw [Transducer.emitted_cons, creditEventsOf_append, messageBytes_append, List.length_append, hcount,
      IngressPath.creditEventsOf_emit]
    cases hio : e.1 with
    | none => simpa [messageBytes] using ih
    | some i =>
      have := hone s.control (s.controlIn i)
      rw [Option.toList_some, List.flatMap_singleton, Control.messageBytes_events, Option.isSome_some, Bool.toNat_true]
      omega

/-- The FIFO is enabled from the third edge of `clk_io` on. -/
theorem fifoEn_run {s₀ : IngressPath W} (h : s₀.fifoEnIo = 0) {es : List IngressEdge}
    (hrun : (ingressEdges W).Each IngressPath.Edge s₀ es) :
    ((ingressEdges W).after s₀ es).fifoEnIo = (nextFifoEn false)^[ioEdges es] 0 := by
  induction es using List.reverseRecOn with
  | nil => exact h
  | append_singleton es e ih =>
    obtain ⟨hrun, he, -⟩ := (ingressEdges W).each_append.mp hrun
    have hafter : ((ingressEdges W).after s₀ (es ++ [e])).fifoEnIo = (((ingressEdges W).after s₀ es).next e.1 e.2).fifoEnIo :=
      congrArg IngressPath.fifoEnIo (Transducer.after_append ..)
    rw [hafter, ioEdges_append, ioEdges_singleton]
    cases hio : e.1 with
    | none => exact ih hrun
    | some i =>
      rw [Option.isSome_some, Bool.toNat_true, Function.iterate_succ_apply', ← ih hrun]
      simp only [IngressPath.next, he.io i hio]

theorem fifoEn_three (n : Nat) : (nextFifoEn false)^[n + 3] 0 = 7 := by
  induction n with
  | zero => rfl
  | succ n ih => rw [Nat.add_right_comm, Function.iterate_succ_apply', ih]; rfl

namespace IngressPath
variable {s : IngressPath W} {e : IngressEdge}

theorem decodedBytes_emit : decodedBytes ((ingressEdges W).emit s e) = s.userBytes e.1 := by
  simp [ingressEdges, decodedBytes, List.filterMap_map]

theorem acceptedBytes_emit : acceptedBytes ((ingressEdges W).emit s e) = s.accepts e.1 := by
  simp [ingressEdges, acceptedBytes, List.filterMap_map]

/-- An enabled FIFO with room accepts what is decoded. -/
theorem accepts_eq (hen : s.fifoEn = true) (hfull : s.cdc.full = false) : s.accepts e.1 = s.userBytes e.1 := by
  cases hio : e.1 with
  | none => rfl
  | some i => simp [accepts, DualClock.accepts, cdcWrite, userBytes, hen, hfull]

end IngressPath

/-- Where the host pays for its bytes, a byte is decoded only after a credit message, so that
the FIFO is enabled. -/
theorem fifoEn_of_user {s₀ : IngressPath W} (h : s₀.Released) {es : List IngressEdge} {e : IngressEdge}
    (hrun : (ingressEdges W).Each IngressPath.Edge s₀ es) (hpays : HostPays s₀ (es ++ [e]))
    (huser : ((ingressEdges W).after s₀ es).userBytes e.1 ≠ []) : ((ingressEdges W).after s₀ es).fifoEn = true := by
  have hpaid := hpays.last
  have hone := List.length_pos_of_ne_nil huser
  rw [Transducer.emitted_append, users_append, Transducer.emitted_cons, Transducer.emitted_nil, List.append_nil,
    IngressPath.users_emit] at hpaid
  have hlength : 3 ≤ (messageBytes (creditEventsOf ((ingressEdges W).emitted s₀ es))).length := by
    by_contra hshort
    rw [creditsOf_short (Nat.lt_of_not_le hshort)] at hpaid
    omega
  obtain ⟨n, hn⟩ := Nat.exists_eq_add_of_le' (Nat.le_trans hlength length_messageBytes_le)
  rw [IngressPath.fifoEn, fifoEn_run h.fifoEnIo hrun, hn, fifoEn_three]
  rfl

/-- From the release of `com_rst` on: if the host only sends what it has credit for, and the
user logic keeps up with it, `u_ingress_cdc` accepts every byte that is decoded, is never
full, and the control module never raises the error for it. -/
theorem ingress_never_overflows {s₀ : IngressPath W} (h : s₀.Released) {es : List IngressEdge}
    (hrun : (ingressEdges W).Each IngressPath.Edge s₀ es) (hpays : HostPays s₀ es) (hkeeps : KeepsUp s₀ es) :
    let s := (ingressEdges W).after s₀ es
    let ev := (ingressEdges W).emitted s₀ es
    acceptedBytes ev = decodedBytes ev ∧ s.cdc.full = false ∧
      ∀ i, (s.ingressOut i).error = (s.ingressOut i).fsmError := by
  intro s ev
  have hfull : s.cdc.full = false := not_full_run h hrun hkeeps
  refine ⟨?_, hfull, fun i => ?_⟩
  · clear hfull
    induction es using List.reverseRecOn with
    | nil => rfl
    | append_singleton es e ih =>
      have hbefore := ((ingressEdges W).each_append.mp hrun).1
      have hroom := not_full_run h hbefore hkeeps.of_append
      have hsame : ((ingressEdges W).after s₀ es).accepts e.1 = ((ingressEdges W).after s₀ es).userBytes e.1 := by
        by_cases huser : ((ingressEdges W).after s₀ es).userBytes e.1 = []
        · have := IngressPath.length_accepts_le (s := (ingressEdges W).after s₀ es) (e := e)
          rw [huser, List.length_nil, Nat.le_zero, List.length_eq_zero_iff] at this
          rw [this, huser]
        · exact IngressPath.accepts_eq (fifoEn_of_user h hbefore hpays huser) hroom
      have ih : acceptedBytes _ = decodedBytes _ := ih hbefore hpays.of_append hkeeps.of_append
      have hev : ev = (ingressEdges W).emitted s₀ es ++ (ingressEdges W).emit ((ingressEdges W).after s₀ es) e := by
        simp only [ev, Transducer.emitted_append, Transducer.emitted_cons, Transducer.emitted_nil, List.append_nil]
      rw [hev, acceptedBytes, decodedBytes, List.filterMap_append, List.filterMap_append]
      exact congrArg₂ _ ih ((IngressPath.acceptedBytes_emit.trans hsame).trans IngressPath.decodedBytes_emit.symm)
  · have hready : (s.controlIn i).ingressOutReady = true := by simp [IngressPath.controlIn, hfull]
    simp [IngressPath.ingressOut, Control.ingressOut, Control.ingressIn, Ingress.out, hready]

section Runs

def lockstep (ready : Bool) : IngressPath W → List (Option UInt8) → List IngressEdge
  | _, [] => []
  | s, b :: bs =>
    let e : IngressEdge := (some ⟨false, b.getD 0, b.isSome, 0, false, true, s.cdc.rd.rdAddrGray⟩,
      some ⟨false, ready, s.cdc.wr.wrAddrGray⟩)
    e :: lockstep ready (s.next e.1 e.2) bs

/-- A user logic that is never ready: the host spends 54 bytes of its credit, and two are lost. -/
theorem ingress_overflows :
    let s₀ := ingressReleased
    let es := lockstep false s₀ (List.replicate 6 none ++ List.replicate 54 (some 0x41))
    s₀.Released ∧ (ingressEdges 8).Each IngressPath.Edge s₀ es ∧ HostPays s₀ es ∧
      ((ingressEdges 8).after s₀ es).cdc.full = true ∧
      (decodedBytes ((ingressEdges 8).emitted s₀ es)).length = 54 ∧
      (acceptedBytes ((ingressEdges 8).emitted s₀ es)).length = 52 := by
  intro s₀ es
  exact ⟨ingressReleased_released, by decide +kernel, by decide +kernel, by decide +kernel, by decide +kernel,
    by decide +kernel⟩

/-- A user logic that is always ready: 20 bytes arrive. -/
theorem ingress_never_overflows_ready :
    let s₀ := ingressReleased
    let es := lockstep true s₀ (List.replicate 6 none ++ List.replicate 20 (some 0x41))
    users ((ingressEdges 8).emitted s₀ es) = 20 ∧
      acceptedBytes ((ingressEdges 8).emitted s₀ es) = decodedBytes ((ingressEdges 8).emitted s₀ es) := by
  intro s₀ es
  have hrun : (ingressEdges 8).Each IngressPath.Edge s₀ es := by decide +kernel
  have hpays : HostPays s₀ es := by decide +kernel
  have hkeeps : KeepsUp s₀ es := by decide +kernel
  exact ⟨by decide +kernel, (ingress_never_overflows ingressReleased_released hrun hpays hkeeps).1⟩

end Runs
end Glip.Uart
