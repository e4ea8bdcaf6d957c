import Glip.Uart.IngressPath

/-! The credit that the target pays back for the user bytes that it takes out of
`u_ingress_cdc`: it is counted in cycles of `clk_io` in which a byte waits there. -/
namespace Glip.Uart
open Foundation Fifo
variable {W : Nat}

/-- The host has received credit for every user byte that the target decodes. -/
def HostPays (s₀ : IngressPath W) (es : List IngressEdge) : Prop :=
  ∀ k < es.length, users ((ingressEdges W).emitted s₀ (es.take (k + 1))) ≤
    creditsOf (messageBytes (creditEventsOf ((ingressEdges W).emitted s₀ (es.take k))))

instance (s₀ : IngressPath W) (es : List IngressEdge) : Decidable (HostPays s₀ es) :=
  inferInstanceAs (Decidable (∀ k < _, _))

theorem HostPays.of_append {s₀ : IngressPath W} {a b : List IngressEdge} (h : HostPays s₀ (a ++ b)) : HostPays s₀ a := by
  intro k hk
  have hpay := h k (by rw [List.length_append]; omega)
  rwa [List.take_append_of_le_length hk, List.take_append_of_le_length (Nat.le_of_lt hk)] at hpay

/-- The last edge of a run: what is decoded there is paid for before. -/
theorem HostPays.last {s₀ : IngressPath W} {es : List IngressEdge} {e : IngressEdge} (h : HostPays s₀ (es ++ [e])) :
    users ((ingressEdges W).emitted s₀ (es ++ [e])) ≤
      creditsOf (messageBytes (creditEventsOf ((ingressEdges W).emitted s₀ es))) := by
  have hpay := h es.length (by simp)
  rwa [List.take_left, List.take_of_length_le (by simp)] at hpay

namespace IngressPath
variable (s : IngressPath W) (e : IngressEdge)

def counts : Bool := e.1.isSome && s.transferIn

def takesByte : Bool := e.2.isSome && (s.upscaleInReady && !s.cdc.empty)

def userReady : Bool := e.2.isSome && s.upscaleInReady

/-- What has happened since the last edge of `clk_io`: the edges of `clk`, whether a byte was
at the output of `u_ingress_cdc` from that edge on, and whether the user side has been ready
for a byte that waits, which is so with a byte at the output or after five edges of `clk`. -/
structure SinceIo where
  clks : Nat
  waits : Bool
  ready : Bool

def SinceIo.next (m : SinceIo) : SinceIo :=
  if e.1.isSome then ⟨0, !(s.next e.1 e.2).cdc.empty, false⟩
  else ⟨m.clks + e.2.isSome.toNat, m.waits, m.ready || (m.waits || decide (5 ≤ m.clks)) && s.userReady e⟩

/-- An edge of `clk_io` that finds a byte at the output of `u_ingress_cdc`, and room in it, is
one of `clk` as well, at which the user side is ready; or the user side has been ready since
the last edge of `clk_io`. -/
def Served : SinceIo → IngressPath W → List IngressEdge → Prop
  | _, _, [] => True
  | m, s, e :: es =>
      (e.1.isSome = true → s.cdc.empty = false → s.cdc.full = false → m.ready = true ∨ s.userReady e = true) ∧
      Served (m.next s e) (s.next e.1 e.2) es

instance : (m : SinceIo) → (s : IngressPath W) → (es : List IngressEdge) → Decidable (Served m s es)
  | _, _, [] => instDecidableTrue
  | m, s, e :: es =>
    have : Decidable (Served (m.next s e) (s.next e.1 e.2) es) := instDecidableServed _ _ es
    inferInstanceAs (Decidable (_ ∧ _))

variable {s e}

theorem Served.of_append {m : SinceIo} {a b : List IngressEdge} (h : Served m s (a ++ b)) : Served m s a := by
  induction a generalizing s m with
  | nil => trivial
  | cons e a ih => exact ⟨h.1, ih h.2⟩

theorem transfers_emit : transfers (creditEventsOf ((ingressEdges W).emit s e)) = (s.counts e).toNat := by
  rw [creditEventsOf_emit, counts]
  cases e.1 with
  | none => rfl
  | some i =>
    rw [Option.toList_some, List.flatMap_singleton, Control.transfers_events, Option.isSome_some, Bool.true_and]
    rfl

theorem taken_emit_eq : taken ((ingressEdges W).emit s e) = (s.takesByte e).toNat := by
  rw [taken_emit, takes, takesByte]
  cases e.2 with
  | none => rfl
  | some j =>
    rw [Option.map_some, DualClock.delivers, Prefetch.delivers, Option.isSome_some, Bool.true_and]
    have hempty : s.cdc.prefetch.empty = s.cdc.empty := rfl
    have hready : (s.cdcRead j).rdEn = s.upscaleInReady := rfl
    rw [hempty, hready]
    cases s.upscaleInReady && !s.cdc.empty <;> rfl

/-- The bytes in `u_ingress_cdc` are as near to its output as `n` edges of `clk` bring them. -/
def Settles (s : IngressPath W) (n : Nat) : Prop :=
  ∃ words wm rm, s.cdc.At words wm rm ∧ s.cdc.Settled wm rm n

theorem Released.settles (h : s.Released) : s.Settles 0 := ⟨_, _, _, h.cdc.at (by decide), DualClock.settled_zero⟩

theorem Settles.next {n : Nat} (h : s.Settles n) (hinv : s.Inv) (he : s.Edge e) :
    (s.next e.1 e.2).Settles (if e.1.isSome then 0 else n + e.2.isSome.toNat) := by
  cases hr : s.fifoRst with
  | true =>
    have hreset : (s.next e.1 e.2).cdc.IsReset := (hinv.reset hr).1.next_rst (cdcWrite_rst hr) (cdcRead_rst hr)
    exact ⟨_, _, _, hreset.at (by decide), hreset.settled (by decide) _⟩
  | false =>
    obtain ⟨words, wm, rm, hat, hset⟩ := h
    obtain ⟨io, clk⟩ := e
    have hread := cdcRead_rst (e := (io, clk)) hr
    cases io with
    | none =>
      obtain ⟨wm', rm', hat', hset'⟩ := hat.next_settled hset he.sampled hread
      rw [Option.isSome_map] at hset'
      exact ⟨words, wm', rm', hat', hset'⟩
    | some i =>
      obtain ⟨wm', rm', hat', -⟩ := hat.next he.sampled (cdcWrite_rst hr) hread
      exact ⟨_, wm', rm', hat', DualClock.settled_zero⟩

/-- Five edges of `clk` after the last one of `clk_io` a byte in the FIFO waits at its output. -/
theorem Settles.takesByte {n : Nat} (h : s.Settles n) (hn : 5 ≤ n) (hready : s.userReady e = true) :
    s.takesByte e = true ∨ s.cdc.contents = [] := by
  obtain ⟨words, wm, rm, -, hset⟩ := h
  obtain ⟨hclk, hup⟩ := Bool.and_eq_true_iff.mp hready
  cases hempty : s.cdc.empty with
  | true => exact .inr (hset.shown hn hempty)
  | false => exact .inl (by simp [IngressPath.takesByte, hclk, hup, hempty])

/-- No byte comes in but at an edge of `clk_io`. -/
theorem Inv.contents_clk (h : s.Inv) (he : s.Edge e) (hio : e.1.isSome = false) (hnil : s.cdc.contents = []) :
    (s.next e.1 e.2).cdc.contents = [] := by
  have hqueue := h.contents_next he
  have hnone : s.accepts e.1 = [] := by
    rw [Option.isSome_eq_false_iff, Option.isNone_iff_eq_none] at hio
    rw [hio]
    rfl
  rw [hnil, hnone, List.append_nil] at hqueue
  exact (List.append_eq_nil_iff.mp hqueue).2

/-- A byte at the output stays there until the user side is ready. -/
theorem Inv.waits_next (h : s.Inv) (hempty : s.cdc.empty = false) (hready : s.userReady e = false) :
    (s.next e.1 e.2).cdc.empty = false := by
  have hrst : s.fifoRst = false := by
    refine Bool.eq_false_iff.mpr fun hr => ?_
    simp [DualClock.empty, (h.reset hr).1.prefetch, Prefetch.empty, Prefetch.reset] at hempty
  obtain ⟨io, clk⟩ := e
  cases clk with
  | none => exact hempty
  | some j =>
    have hup : s.upscaleInReady = false := hready
    have hnext : (s.next io (some j)).cdc.prefetch = s.cdc.prefetch.next s.upscaleInReady s.cdc.rd.empty s.cdc.rd.dout := by
      simp [IngressPath.next, DualClock.next, cdcRead, hrst]
    rw [DualClock.empty, hnext, hup]
    exact Prefetch.next_empty _ _ _ hempty

/-- A run in which `c` cycles have been counted and `t` bytes taken. -/
structure SinceIo.Fits (m : SinceIo) (s : IngressPath W) (c t : Nat) : Prop where
  settles : s.Settles m.clks
  waits : m.waits = true → m.ready = true ∨ s.cdc.empty = false
  ready : m.ready = true → c < t ∨ s.cdc.contents = []
  counted : c ≤ t

section Step
variable {m : SinceIo} {c t : Nat} (h : m.Fits s c t) (hinv : s.Inv) (he : s.Edge e)
include h hinv he

/-- Between two edges of `clk_io` nothing is counted. -/
theorem SinceIo.Fits.next_clk (hio : e.1.isSome = false) :
    (m.next s e).Fits (s.next e.1 e.2) (c + (s.counts e).toNat) (t + (s.takesByte e).toNat) := by
  have hcount : s.counts e = false := by simp [counts, hio]
  have hstay (hnil : s.cdc.contents = []) := hinv.contents_clk he hio hnil
  have hnext : m.next s e =
      ⟨m.clks + e.2.isSome.toNat, m.waits, m.ready || (m.waits || decide (5 ≤ m.clks)) && s.userReady e⟩ := by
    simp [SinceIo.next, hio]
  have hcounted := h.counted
  have hsettles := h.settles.next hinv he
  rw [if_neg (by simp [hio])] at hsettles
  rw [hnext, hcount, Bool.toNat_false]
  refine ⟨hsettles, fun hwaits => ?_, fun hready => ?_, by omega⟩
  · rcases h.waits hwaits with hr | hempty
    · exact .inl (by simp [hr])
    · cases hup : s.userReady e with
      | true => exact .inl (by simp [show m.waits = true from hwaits])
      | false => exact .inr (hinv.waits_next hempty hup)
  · have hbefore (hr : m.ready = true) : c + 0 < t + (s.takesByte e).toNat ∨ (s.next e.1 e.2).cdc.contents = [] :=
      (h.ready hr).imp (fun hlt => by omega) hstay
    rw [Bool.or_eq_true, Bool.and_eq_true, Bool.or_eq_true, decide_eq_true_iff] at hready
    rcases hready with hr | ⟨hnear, hup⟩
    · exact hbefore hr
    · have htook (htakes : s.takesByte e = true) : c + 0 < t + (s.takesByte e).toNat := by
        rw [htakes, Bool.toNat_true]
        omega
      rcases hnear with hwaits | hclks
      · rcases h.waits hwaits with hr | hempty
        · exact hbefore hr
        · obtain ⟨hclk, hup⟩ := Bool.and_eq_true_iff.mp hup
          exact .inl (htook (by simp [IngressPath.takesByte, hclk, hup, hempty]))
      · exact (h.settles.takesByte hclks hup).imp htook hstay

/-- A cycle of `clk_io` that is counted has its byte taken. -/
theorem SinceIo.Fits.next_io (hio : e.1.isSome = true)
    (hserved : s.cdc.empty = false → s.cdc.full = false → m.ready = true ∨ s.userReady e = true) :
    (m.next s e).Fits (s.next e.1 e.2) (c + (s.counts e).toNat) (t + (s.takesByte e).toNat) := by
  have hcounted := h.counted
  have hsettles := h.settles.next hinv he
  rw [if_pos hio] at hsettles
  rw [SinceIo.next, if_pos hio]
  refine ⟨hsettles, fun hwaits => .inr ?_, fun hno => ?_, ?_⟩
  · simpa using hwaits
  · cases hno
  · cases hcount : s.counts e with
    | false =>
      dsimp only [Bool.toNat_false]
      omega
    | true =>
      obtain ⟨hempty, hfull⟩ : s.cdc.empty = false ∧ s.cdc.full = false := by simpa [counts, transferIn, hio] using hcount
      rw [Bool.toNat_true]
      rcases hserved hempty hfull with hr | hr
      · -- the byte waits, so that it is not the one that was taken
        obtain ⟨rest, hbyte⟩ := DualClock.contents_eq_cons hempty
        have := (h.ready hr).resolve_right (by simp [hbyte])
        omega
      · obtain ⟨hclk, hup⟩ := Bool.and_eq_true_iff.mp hr
        have htakes : s.takesByte e = true := by simp [IngressPath.takesByte, hclk, hup, hempty]
        rw [htakes, Bool.toNat_true]
        omega

theorem SinceIo.Fits.next
    (hserved : e.1.isSome = true → s.cdc.empty = false → s.cdc.full = false → m.ready = true ∨ s.userReady e = true) :
    (m.next s e).Fits (s.next e.1 e.2) (c + (s.counts e).toNat) (t + (s.takesByte e).toNat) := by
  cases hio : e.1.isSome with
  | true => exact h.next_io hinv he hio (hserved hio)
  | false => exact h.next_clk hinv he hio

end Step

/-- What is counted has been taken. -/
theorem Served.transfers_le {m : SinceIo} {es : List IngressEdge} {c t : Nat} (h : Served m s es)
    (hrun : (ingressEdges W).Each IngressPath.Edge s es) (hinv : s.Inv) (hfits : m.Fits s c t) :
    c + transfers (creditEventsOf ((ingressEdges W).emitted s es)) ≤ t + taken ((ingressEdges W).emitted s es) := by
  induction es generalizing s m c t with
  | nil => exact hfits.counted
  | cons e es ih =>
    obtain ⟨hserved, hrest⟩ := h
    obtain ⟨he, hrun⟩ := hrun
    have := ih hrest hrun (hinv.next he) (hfits.next hinv he hserved)
    rw [Transducer.emitted_cons, creditEventsOf_append, transfers_append, taken_append, transfers_emit, taken_emit_eq]
    have hnext : (ingressEdges W).next s e = s.next e.1 e.2 := rfl
    rw [hnext]
    omega

end IngressPath

/-- Every byte that the FIFO accepts is taken out of it or still inside. -/
theorem stored_run {s₀ : IngressPath W} (h : s₀.Released) {es : List IngressEdge}
    (hrun : (ingressEdges W).Each IngressPath.Edge s₀ es) :
    ((ingressEdges W).after s₀ es).Inv ∧
      taken ((ingressEdges W).emitted s₀ es) + ((ingressEdges W).after s₀ es).cdc.contents.length =
        accepted ((ingressEdges W).emitted s₀ es) ∧
      accepted ((ingressEdges W).emitted s₀ es) ≤ users ((ingressEdges W).emitted s₀ es) := by
  induction es using List.reverseRecOn with
  | nil =>
    have hempty : s₀.cdc.contents = [] := h.cdc.contents_eq (by decide)
    exact ⟨h.inv, by simp [hempty, taken, accepted], Nat.le_refl 0⟩
  | append_singleton es e ih =>
    obtain ⟨hrun, he, -⟩ := (ingressEdges W).each_append.mp hrun
    obtain ⟨hinv, hstored, hle⟩ := ih hrun
    have hcontents := congrArg List.length (hinv.contents_next he)
    have haccepts := IngressPath.length_accepts_le (s := (ingressEdges W).after s₀ es) (e := e)
    rw [Transducer.after_append, Transducer.emitted_append, Transducer.emitted_cons, Transducer.emitted_nil, List.append_nil,
      taken_append, accepted_append, users_append, IngressPath.accepted_emit, IngressPath.users_emit]
    rw [List.length_append, List.length_append, ← IngressPath.taken_emit] at hcontents
    have hnext : ((ingressEdges W).after ((ingressEdges W).after s₀ es) [e]).cdc.contents.length =
        (((ingressEdges W).after s₀ es).next e.1 e.2).cdc.contents.length := rfl
    exact ⟨hinv.next he, by omega, by omega⟩

/-- The control module counts what the host has got, as long as no more is paid back than that. -/
theorem ledger_run {s₀ : IngressPath W} (h : s₀.control.CreditReset) {es : List IngressEdge}
    (hrun : (ingressEdges W).Each IngressPath.Edge s₀ es)
    (hsolvent : ∀ k < es.length, Control.Solvent (creditEventsOf ((ingressEdges W).emitted s₀ (es.take k)))) :
    ∃ sent, ((ingressEdges W).after s₀ es).control.Ledger sent
        (transfers (creditEventsOf ((ingressEdges W).emitted s₀ es))) ∧
      messageBytes (creditEventsOf ((ingressEdges W).emitted s₀ es)) =
        sent.flatMap creditMessage ++ ((ingressEdges W).after s₀ es).control.sentPart := by
  induction es using List.reverseRecOn with
  | nil =>
    obtain ⟨hledger, hpart, -⟩ := h.ledger
    exact ⟨[], hledger, by simp [hpart, messageBytes, creditEventsOf]⟩
  | append_singleton es e ih =>
    obtain ⟨hrun, he, -⟩ := (ingressEdges W).each_append.mp hrun
    have hlast := hsolvent es.length (by simp)
    obtain ⟨sent, hledger, hbytes⟩ := ih hrun fun k hk => by
      have := hsolvent k (by rw [List.length_append]; omega)
      rwa [List.take_append_of_le_length (Nat.le_of_lt hk)] at this
    rw [List.take_left] at hlast
    rw [Transducer.after_append, Transducer.emitted_append, Transducer.emitted_cons, Transducer.emitted_nil, List.append_nil,
      creditEventsOf_append, transfers_append, messageBytes_append, hbytes, IngressPath.creditEventsOf_emit]
    cases hio : e.1 with
    | none =>
      have hnext : ((ingressEdges W).after ((ingressEdges W).after s₀ es) [e]).control =
          ((ingressEdges W).after s₀ es).control := by
        simp only [Transducer.after_cons, Transducer.after_nil, ingressEdges, IngressPath.next, hio]
      rw [hnext]
      exact ⟨sent, hledger, by simp [messageBytes]⟩
    | some i =>
      have hnext : ((ingressEdges W).after ((ingressEdges W).after s₀ es) [e]).control =
          ((ingressEdges W).after s₀ es).control.next (((ingressEdges W).after s₀ es).controlIn i) := by
        simp only [Transducer.after_cons, Transducer.after_nil, ingressEdges, IngressPath.next, hio]
      have hresources : ((ingressEdges W).after s₀ es).control.creditor.resources ≤ inputFifoCredit := by
        have hsum := hledger.sum
        rw [Control.Solvent, hbytes, hledger.creditsOf_sent] at hlast
        omega
      obtain ⟨done, hledger', -, hpart⟩ := hledger.next (he.io i hio) hresources
      rw [hnext, Option.toList_some, List.flatMap_singleton]
      refine ⟨sent ++ done, hledger', ?_⟩
      rw [List.append_assoc, hpart, List.flatMap_append, List.append_assoc]

theorem users_le_credits {s₀ : IngressPath W} {es : List IngressEdge} (h : HostPays s₀ es) :
    users ((ingressEdges W).emitted s₀ es) ≤
      creditsOf (messageBytes (creditEventsOf ((ingressEdges W).emitted s₀ es))) := by
  rcases List.eq_nil_or_concat es with rfl | ⟨es, e, rfl⟩
  · exact Nat.zero_le _
  · rw [List.concat_eq_append] at h ⊢
    apply Nat.le_trans h.last
    rw [Transducer.emitted_append, creditEventsOf_append, messageBytes_append]
    exact creditsOf_le_append _ _

/-- What is counted from the release of `com_rst` on has been taken. -/
theorem counted_le_taken {s₀ : IngressPath W} (h : s₀.Released) {es : List IngressEdge}
    (hrun : (ingressEdges W).Each IngressPath.Edge s₀ es) (hserved : IngressPath.Served ⟨0, false, false⟩ s₀ es) :
    transfers (creditEventsOf ((ingressEdges W).emitted s₀ es)) ≤ taken ((ingressEdges W).emitted s₀ es) := by
  have hfits : (⟨0, false, false⟩ : IngressPath.SinceIo).Fits s₀ 0 0 :=
    ⟨h.settles, (fun hno => by cases hno), (fun hno => by cases hno), Nat.le_refl 0⟩
  have := hserved.transfers_le hrun h.inv hfits
  omega

/-- From the release of `com_rst` on: if the user side is ready for the bytes that an edge of
`clk_io` finds waiting, the host is not paid back for more bytes than have been taken. Then,
with a host that only spends the credit that it has got, the creditor never has more than
`INPUT_FIFO_CREDIT`, and neither do the credit that the host has left and the bytes in the
FIFO together. -/
theorem ingress_credit_conserved {s₀ : IngressPath W} (h : s₀.Released) {es : List IngressEdge}
    (hrun : (ingressEdges W).Each IngressPath.Edge s₀ es) (hserved : IngressPath.Served ⟨0, false, false⟩ s₀ es) :
    let s := (ingressEdges W).after s₀ es
    let ev := (ingressEdges W).emitted s₀ es
    transfers (creditEventsOf ev) ≤ taken ev ∧
      (HostPays s₀ es → s.control.creditor.resources ≤ inputFifoCredit ∧
        creditsOf (messageBytes (creditEventsOf ev)) + s.cdc.contents.length ≤ inputFifoCredit + users ev) := by
  dsimp only
  have hcounted := counted_le_taken h hrun hserved
  refine ⟨hcounted, fun hpays => ?_⟩
  obtain ⟨-, hstored, hle⟩ := stored_run h hrun
  obtain ⟨sent, hledger, hbytes⟩ := ledger_run h.control hrun fun k hk => by
    have hsplit := List.take_append_drop k es
    rw [← hsplit] at hrun hserved hpays
    have hbefore := ((ingressEdges W).each_append.mp hrun).1
    have hpaid := users_le_credits hpays.of_append
    obtain ⟨-, hstored, hle⟩ := stored_run h hbefore
    have hcounted := counted_le_taken h hbefore hserved.of_append
    rw [Control.Solvent]
    omega
  have hpaid := users_le_credits hpays
  have hsum := hledger.sum
  rw [hbytes, hledger.creditsOf_sent] at hpaid ⊢
  constructor <;> omega

section Runs

def ingressReleased : IngressPath 8 :=
  ⟨⟨⟨.passthrough, 0⟩, .idle, 0, ⟨inputFifoCredit, 0⟩, 0, false, false, false, false⟩, 0, 3, 3,
    ⟨⟨0, 0, 0, 0, false, []⟩, ⟨0, 0, 0, 0, true, 0⟩, fun _ => 0, .reset 0⟩, ⟨false, 0⟩,
    ⟨⟨0, 0, 0, fun _ => 0, 0⟩, .reset 0⟩⟩

theorem ingressReleased_released : ingressReleased.Released :=
  ⟨⟨rfl, rfl, rfl, rfl, rfl⟩, rfl, rfl, rfl, rfl, by constructor <;> rfl⟩

def ioEdge (rdAddrGray : BitVec 4) : IngressIoEdge := ⟨false, 0, false, 0, false, true, rdAddrGray⟩
def clkEdge (wrAddrGray : BitVec 4) : IngressClkEdge := ⟨false, true, wrAddrGray⟩

/-- A byte that waits during two cycles of `clk_io` for the next edge of `clk` is paid back
twice before it is taken. -/
theorem ingress_credit_counts_waiting :
    let s₀ := ingressReleased
    let es : List IngressEdge := List.replicate 5 (some (ioEdge 0), some (clkEdge 0)) ++
      [(some { ioEdge 0 with receiveData := 0x41, receiveEnable := true }, none)] ++
      List.replicate 5 (none, some (clkEdge 1)) ++ List.replicate 2 (some (ioEdge 1), none)
    s₀.Released ∧ (ingressEdges 8).Each IngressPath.Edge s₀ es ∧ HostPays s₀ es ∧
      taken ((ingressEdges 8).emitted s₀ es) = 0 ∧
      transfers (creditEventsOf ((ingressEdges 8).emitted s₀ es)) = 2 := by
  intro s₀ es
  exact ⟨ingressReleased_released, by decide +kernel, by decide +kernel, by decide +kernel, by decide +kernel⟩

/-- Three bytes, of which six edges of `clk` alone take the first one. It is counted at the
next edge of `clk_io`, from which on the second one waits; this one is taken by an edge of
`clk` and counted after it, and the third one is counted when it is taken. -/
theorem ingress_credit_conserved_three_bytes :
    let s₀ := ingressReleased
    let es : List IngressEdge := List.replicate 5 (some (ioEdge 0), some (clkEdge 0)) ++
      [0x41, 0x42, 0x43].map (fun b => (some { ioEdge 0 with receiveData := b, receiveEnable := true }, none)) ++
      List.replicate 6 (none, some (clkEdge 2)) ++
      [(some (ioEdge 2), none), (none, some (clkEdge 2)), (some (ioEdge 2), none), (some (ioEdge 2), some (clkEdge 2))]
    transfers (creditEventsOf ((ingressEdges 8).emitted s₀ es)) = 3 ∧ taken ((ingressEdges 8).emitted s₀ es) = 3 ∧
      ((ingressEdges 8).after s₀ es).control.creditor.resources ≤ inputFifoCredit := by
  intro s₀ es
  have hrun : (ingressEdges 8).Each IngressPath.Edge s₀ es := by decide +kernel
  have hserved : IngressPath.Served ⟨0, false, false⟩ s₀ es := by decide +kernel
  have hpays : HostPays s₀ es := by decide +kernel
  exact ⟨by decide +kernel, by decide +kernel,
    ((ingress_credit_conserved ingressReleased_released hrun hserved).2 hpays).1⟩

end Runs
end Glip.Uart
