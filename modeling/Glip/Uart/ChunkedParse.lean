import Glip.Uart.BackendContext
import Glip.Uart.ParseBuffer

/-! `parse_buffer` over the chunks into which the reads of the host cut the bytes
that the target sends. -/
namespace Glip.Uart
open Foundation

def Port.readByte (port : Port) : Option (UInt8 × Port) :=
  match port.rx with
  | [] => none
  | b :: rx => some (b, { port with rx := rx })

/-- `parse_buffer` in at most `fuel` steps. There is no result after a failed
assertion, a read that waits for ever or when the steps do not suffice. -/
def parseBuffer : Nat → BackendCtx → Port → Parse → Option (BackendCtx × Port × (Nat → UInt8))
  | 0, _, _, _ => none
  | fuel + 1, ctx, port, p =>
    match p.op with
    | .finished => some (ctx, port, p.buffer)
    | .word b next => (ctx.storeWord b).bind fun ctx => parseBuffer fuel ctx port next
    | .debt first second next => parseBuffer fuel (ctx.updateDebt first second) port next
    | .read next => port.readByte.bind fun r => parseBuffer fuel ctx r.2 (next r.1)
    | .wait next =>
      if 2 ≤ ctx.credit then parseBuffer fuel ctx port next
      else parseBuffer fuel (ctx.updateCredit port).1 (ctx.updateCredit port).2 p

/-- Reads of at most the given sizes, each followed by a call of `parse_buffer`,
until nothing is left to read. -/
def receive (fuel : Nat) : BackendCtx → Port → (Nat → UInt8) → List Nat → Option (BackendCtx × Port)
  | ctx, port, _, [] => some (ctx, port)
  | ctx, port, buffer, size :: sizes =>
    if port.rx = [] then some (ctx, port)
    else
      (parseBuffer fuel ctx { port with rx := port.rx.drop size } (.call buffer (port.rx.take size))).bind
        fun r => receive fuel r.1 r.2.1 r.2.2 sizes

def completing : Framing → List UInt8 → List UInt8
  | .start, _ => []
  | .low _, rx => rx.take 1
  | .marked, [] => []
  | .marked, b :: rx => if b = marker then [b] else b :: rx.take 1

def chunkEnds (pre : List UInt8) : List UInt8 → List Nat → List (List UInt8)
  | _, [] => []
  | rx, size :: sizes =>
    if rx = [] then []
    else
      let chunkEnd := pre ++ rx.take size
      let more := completing (hostDecoder.after .start chunkEnd) (rx.drop size)
      chunkEnd :: chunkEnds (chunkEnd ++ more) ((rx.drop size).drop more.length) sizes

/-- A state from which `parse_buffer` returns: what it holds and what is still to
come ends with a message, there is credit for the words in it, and if the bytes it
holds end in a marker alone then there is room for two words behind them. -/
structure Ready (ctx : BackendCtx) (port : Port) (p : Parse) : Prop where
  ok : p.Ok
  whole : Whole (p.rest ++ port.rx)
  backed : ctx.Backed
  debt : ctx.debt < 2 ^ 64
  outcomes : port.outcomes = []
  credit : (wordsOf (p.rest ++ port.rx)).length ≤ ctx.credit
  room : hostDecoder.after .start p.rest = .marked →
    (wordsOf p.rest).length + 2 ≤ cbufFreeLevel ctx.inputBuffer

structure Parsed (ctx : BackendCtx) (bs : List UInt8) (ctx' : BackendCtx) (port' : Port) : Prop where
  whole : Whole bs
  input : ctx'.inputBuffer = ctx.inputBuffer ++ wordsOf bs
  debt : ctx'.debt = (ctx.debt + creditsOf bs) % 2 ^ 64
  backed : ctx'.Backed
  outcomes : port'.outcomes = []
  credit : (wordsOf port'.rx).length ≤ ctx'.credit

def Returns (ctx : BackendCtx) (port : Port) (p : Parse) : Prop :=
  ∃ fuel ctx' port' buffer, parseBuffer fuel ctx port p = some (ctx', port', buffer) ∧
    port.rx = completing (hostDecoder.after .start p.rest) port.rx ++ port'.rx ∧
    Parsed ctx (p.rest ++ completing (hostDecoder.after .start p.rest) port.rx) ctx' port'

section Steps
variable {ctx : BackendCtx} {port : Port} {p next : Parse}

private theorem returns_finished (h : Ready ctx port p) (hop : p.op = .finished) : Returns ctx port p := by
  have hrest : p.rest = [] := Parse.takes h.ok hop
  have hcredit := h.credit
  rw [hrest, List.nil_append] at hcredit
  refine ⟨1, ctx, port, p.buffer, by simp [parseBuffer, hop], ?_, ?_⟩
  · simp [hrest, completing]
  · rw [hrest]
    exact ⟨whole_nil, (List.append_nil _).symm, (Nat.mod_eq_of_lt h.debt).symm, h.backed, h.outcomes, hcredit⟩

private theorem ready_word {b : UInt8} (h : Ready ctx port p) (hop : p.op = .word b next) :
    ∃ ctx', ctx.storeWord b = some ctx' ∧ Ready ctx' port next ∧
      ctx'.inputBuffer = ctx.inputBuffer ++ [b] ∧ ctx'.debt = ctx.debt := by
  obtain ⟨hok, -, hrest⟩ := Parse.takes h.ok hop
  have hw := whole_word b
  have hwhole := h.whole
  have hcredit := h.credit
  have hroom := h.room
  rw [hrest, List.append_assoc] at hwhole hcredit
  rw [hrest] at hroom
  rw [hw.wordsOf_append, wordsOf_word, List.length_append, List.length_singleton] at hcredit hroom
  have hfree := h.backed.credit_le
  have hs := BackendCtx.storeWord_eq h.backed b (by omega)
  have hlen : (ctx.inputBuffer ++ [b]).length = ctx.inputBuffer.length + 1 := List.length_append
  refine ⟨_, hs, ⟨hok, hw.append_iff.mp hwhole, h.backed.storeWord hs, h.debt, h.outcomes, ?_, ?_⟩, rfl, rfl⟩
  · dsimp only
    omega
  · intro hm
    have := hroom ((hw.after_append _).trans hm)
    simp only [cbufFreeLevel, hlen] at this ⊢
    omega

private theorem returns_word {b : UInt8} (h : Ready ctx port p) (hop : p.op = .word b next)
    (ih : ∀ ctx', Ready ctx' port next → Returns ctx' port next) : Returns ctx port p := by
  obtain ⟨ctx₁, hs, hready, hin, hdebt⟩ := ready_word h hop
  obtain ⟨-, -, hrest⟩ := Parse.takes h.ok hop
  obtain ⟨fuel, ctx', port', buffer, hrun, hrx, hp⟩ := ih ctx₁ hready
  have hw := whole_word b
  refine ⟨fuel + 1, ctx', port', buffer, by simp [parseBuffer, hop, hs, hrun], ?_, ?_⟩
  · rw [hrest, hw.after_append]
    exact hrx
  · rw [hrest, hw.after_append, List.append_assoc]
    refine ⟨hw.append_iff.mpr hp.whole, ?_, ?_, hp.backed, hp.outcomes, hp.credit⟩
    · rw [hp.input, hin, hw.wordsOf_append, wordsOf_word, List.append_assoc]
    · rw [hp.debt, hdebt, hw.creditsOf_append, creditsOf_word, Nat.zero_add]

private theorem returns_debt {first second : UInt8} (h : Ready ctx port p)
    (hop : p.op = .debt first second next)
    (ih : ∀ ctx', Ready ctx' port next → Returns ctx' port next) : Returns ctx port p := by
  obtain ⟨hok, -, hf, hrest⟩ := Parse.takes h.ok hop
  change p.rest = [marker, first, second] ++ next.rest at hrest
  have hw := whole_credit hf second
  have hwhole := h.whole
  have hcredit := h.credit
  have hroom := h.room
  rw [hrest, List.append_assoc] at hwhole hcredit
  rw [hrest] at hroom
  rw [hw.wordsOf_append, wordsOf_credit hf, List.nil_append] at hcredit hroom
  have hdebt : sizeAdd ctx.debt (debtTranche first second) =
      (ctx.debt + debtTranche first second) % 2 ^ 64 := sizeAdd_eq_mod _ _
  have hready : Ready (ctx.updateDebt first second) port next :=
    ⟨hok, hw.append_iff.mp hwhole, h.backed.updateDebt first second,
      hdebt.trans_lt (Nat.mod_lt _ (Nat.two_pow_pos 64)), h.outcomes, hcredit,
      fun hm => hroom ((hw.after_append _).trans hm)⟩
  obtain ⟨fuel, ctx', port', buffer, hrun, hrx, hp⟩ := ih _ hready
  refine ⟨fuel + 1, ctx', port', buffer, by simp [parseBuffer, hop, hrun], ?_, ?_⟩
  · rw [hrest, hw.after_append]
    exact hrx
  · rw [hrest, hw.after_append, List.append_assoc]
    refine ⟨hw.append_iff.mpr hp.whole, ?_, ?_, hp.backed, hp.outcomes, hp.credit⟩
    · rw [hp.input, hw.wordsOf_append, wordsOf_credit hf]
      rfl
    · rw [hp.debt, hw.creditsOf_append, creditsOf_credit hf, BackendCtx.updateDebt, hdebt, Nat.mod_add_mod,
        Nat.add_assoc]

/-- The byte that is read next belongs to the message that has been begun. -/
private theorem completing_read {rest : List UInt8} (b : UInt8) (rx : List UInt8)
    (hrest : rest = [marker] ∨ ∃ first, first ≠ marker ∧ rest = [marker, first]) :
    completing (hostDecoder.after .start rest) (b :: rx) =
        b :: completing (hostDecoder.after .start (rest ++ [b])) rx ∧
      hostDecoder.after .start (rest ++ [b]) ≠ .marked := by
  rcases hrest with rfl | ⟨first, hf, rfl⟩
  · by_cases hb : b = marker <;> simp [hostDecoder, completing, hb]
  · simp [hostDecoder, completing, hf]

private theorem returns_read {next : UInt8 → Parse} (h : Ready ctx port p) (hop : p.op = .read next)
    (ih : ∀ b rx, port.rx = b :: rx → Ready ctx { port with rx := rx } (next b) →
      Returns ctx { port with rx := rx } (next b)) : Returns ctx port p := by
  obtain ⟨hshape, hnext⟩ := Parse.takes h.ok hop
  have hshape : p.rest = [marker] ∨ ∃ first, first ≠ marker ∧ p.rest = [marker, first] :=
    hshape.imp_left And.left
  cases hrx : port.rx with
  | nil =>
    have hwhole := h.whole
    rw [hrx, List.append_nil] at hwhole
    rcases hshape with hr | ⟨first, hf, hr⟩ <;> simp [Whole, hostDecoder, *] at hwhole
  | cons b rx =>
    obtain ⟨hok, -, hrest⟩ := hnext b
    obtain ⟨hmore, hmarked⟩ := completing_read b rx hshape
    have happ : (next b).rest ++ rx = p.rest ++ port.rx := by simp [hrest, hrx]
    have hready : Ready ctx { port with rx := rx } (next b) :=
      ⟨hok, happ ▸ h.whole, h.backed, h.debt, h.outcomes, happ ▸ h.credit,
        fun hm => absurd (hrest ▸ hm) hmarked⟩
    obtain ⟨fuel, ctx', port', buffer, hrun, hrx', hp⟩ := ih b rx hrx hready
    refine ⟨fuel + 1, ctx', port', buffer, by simp [parseBuffer, hop, Port.readByte, hrx, hrun], ?_, ?_⟩
    · rw [hrx, hmore, ← hrest]
      exact congrArg (b :: ·) hrx'
    · rw [hrest] at hp
      rw [hrx, hmore]
      simpa using hp

private theorem returns_wait (h : Ready ctx port p) (hop : p.op = .wait next)
    (ih : ∀ ctx' port', port'.rx = port.rx → Ready ctx' port' next → Returns ctx' port' next) :
    Returns ctx port p := by
  obtain ⟨-, hmark, hok, -, hrest⟩ := Parse.takes h.ok hop
  have hroom : 2 ≤ cbufFreeLevel ctx.inputBuffer := by simpa [hmark, wordsOf, hostDecoder, words] using h.room
  by_cases hc : 2 ≤ ctx.credit
  · have hready : Ready ctx port next :=
      ⟨hok, hrest ▸ h.whole, h.backed, h.debt, h.outcomes, hrest ▸ h.credit, hrest ▸ h.room⟩
    obtain ⟨fuel, ctx', port', buffer, hrun, hp⟩ := ih ctx port rfl hready
    exact ⟨fuel + 1, ctx', port', buffer, by simp [parseBuffer, hop, hc, hrun], hrest ▸ hp⟩
  · -- one more credit message brings the credit to two
    obtain ⟨hctx, hrx, hout⟩ := BackendCtx.updateCredit_writes h.backed h.outcomes
    have hcredit : 2 ≤ (ctx.updateCredit port).1.credit ∧ ctx.credit ≤ (ctx.updateCredit port).1.credit := by
      rw [hctx]
      simp only [maxTranche]
      omega
    have hin : (ctx.updateCredit port).1.inputBuffer = ctx.inputBuffer := by rw [hctx]
    have hdebt : (ctx.updateCredit port).1.debt = ctx.debt := by rw [hctx]
    have hready : Ready (ctx.updateCredit port).1 (ctx.updateCredit port).2 next := by
      refine ⟨hok, ?_, h.backed.updateCredit port, hdebt ▸ h.debt, hout, ?_, ?_⟩
      · rw [hrest, hrx]
        exact h.whole
      · rw [hrest, hrx]
        exact h.credit.trans hcredit.2
      · rw [hrest, hin]
        exact h.room
    obtain ⟨fuel, ctx', port', buffer, hrun, hrx', hp⟩ := ih _ _ hrx hready
    rw [hrx, hrest] at hrx' hp
    refine ⟨fuel + 2, ctx', port', buffer, ?_, hrx', hp.whole, ?_, ?_, hp.backed, hp.outcomes, hp.credit⟩
    · simp [parseBuffer, hop, hc, hcredit.1, hrun]
    · rw [hp.input, hin]
    · rw [hp.debt, hdebt]

private def remaining (port : Port) (p : Parse) : Nat := 2 * (p.rest.length + 2 * port.rx.length) + p.atLoop.toNat

theorem parse_returns (h : Ready ctx port p) : Returns ctx port p := by
  induction hn : remaining port p using Nat.strongRecOn generalizing ctx port p with
  | _ n ih =>
    subst hn
    cases hop : p.op with
    | finished => exact returns_finished h hop
    | word b next =>
      obtain ⟨-, hloop, hrest⟩ := Parse.takes h.ok hop
      have hb : 0 < (wordBytes b).length := by unfold wordBytes; split <;> simp
      refine returns_word h hop fun ctx' hready => ih _ ?_ hready rfl
      simp only [remaining, hrest, List.length_append, hloop, Bool.toNat_true]
      omega
    | debt first second next =>
      obtain ⟨-, hloop, -, hrest⟩ := Parse.takes h.ok hop
      refine returns_debt h hop fun ctx' hready => ih _ ?_ hready rfl
      simp only [remaining, hrest, List.length_cons, hloop, Bool.toNat_true]
      omega
    | read next =>
      obtain ⟨-, hnext⟩ := Parse.takes h.ok hop
      refine returns_read h hop fun b rx hrx hready => ih _ ?_ hready rfl
      obtain ⟨-, hloop, hrest⟩ := hnext b
      simp only [remaining, hrest, hrx, List.length_append, List.length_cons, List.length_nil, hloop,
        Bool.toNat_false]
      omega
    | wait next =>
      obtain ⟨hloop, -, -, hnext, hrest⟩ := Parse.takes h.ok hop
      refine returns_wait h hop fun ctx' port' hrx hready => ih _ ?_ hready rfl
      simp only [remaining, hrest, hrx, hloop, hnext, Bool.toNat_true, Bool.toNat_false]
      omega

/-- With room for less than two words behind a marker that ends its bytes, the call
waits for ever. -/
private theorem parse_stuck (fuel : Nat) (hok : p.Ok) (hloop : p.atLoop = true) (hb : ctx.Backed)
    (hout : port.outcomes = []) (hm : hostDecoder.after .start p.rest = .marked)
    (hroom : cbufFreeLevel ctx.inputBuffer < (wordsOf p.rest).length + 2) :
    parseBuffer fuel ctx port p = none := by
  induction fuel generalizing ctx port p with
  | zero => rfl
  | succ fuel ih =>
    cases hop : p.op with
    | finished =>
      have hrest : p.rest = [] := Parse.takes hok hop
      rw [hrest] at hm
      cases hm
    | word b next =>
      obtain ⟨hok', hloop', hrest⟩ := Parse.takes hok hop
      have hw := whole_word b
      rw [hrest, hw.after_append] at hm
      rw [hrest, hw.wordsOf_append, wordsOf_word, List.length_append, List.length_singleton] at hroom
      cases hs : ctx.storeWord b with
      | none => simp [parseBuffer, hop, hs]
      | some ctx' =>
        simp only [parseBuffer, hop, hs, Option.bind_some]
        refine ih hok' hloop' (hb.storeWord hs) hout hm ?_
        have hc : 0 < ctx.credit := by
          by_contra hc
          simp [BackendCtx.storeWord, hc] at hs
        have hlen : (ctx.inputBuffer ++ [b]).length = ctx.inputBuffer.length + 1 := List.length_append
        rw [BackendCtx.storeWord_eq hb b hc] at hs
        obtain rfl := Option.some_inj.mp hs
        simp only [cbufFreeLevel, hlen] at hroom ⊢
        omega
    | debt first second next =>
      obtain ⟨hok', hloop', hf, hrest⟩ := Parse.takes hok hop
      change p.rest = [marker, first, second] ++ next.rest at hrest
      have hw := whole_credit hf second
      rw [hrest, hw.after_append] at hm
      rw [hrest, hw.wordsOf_append, wordsOf_credit hf, List.nil_append] at hroom
      simp only [parseBuffer, hop]
      exact ih hok' hloop' (hb.updateDebt first second) hout hm hroom
    | read next =>
      obtain ⟨⟨-, hnot⟩ | ⟨first, hf, hrest⟩, -⟩ := Parse.takes hok hop
      · rw [hloop] at hnot
        cases hnot
      · simp [hrest, hostDecoder, hf] at hm
    | wait next =>
      obtain ⟨-, hrest, -⟩ := Parse.takes hok hop
      have hlt : cbufFreeLevel ctx.inputBuffer < 2 := by
        simpa [hrest, wordsOf, hostDecoder, words] using hroom
      have hle := hb.credit_le
      obtain ⟨hctx, -, hout'⟩ := BackendCtx.updateCredit_writes hb hout
      have hin : (ctx.updateCredit port).1.inputBuffer = ctx.inputBuffer := by rw [hctx]
      simp only [parseBuffer, hop, if_neg (show ¬2 ≤ ctx.credit by omega)]
      exact ih hok hloop (hb.updateCredit port) hout' hm (hin ▸ hroom)

end Steps
section Fuel
variable {fuel more : Nat}

private theorem parseBuffer_mono {ctx : BackendCtx} {port : Port} {p : Parse}
    {r : BackendCtx × Port × (Nat → UInt8)} (hle : fuel ≤ more) (h : parseBuffer fuel ctx port p = some r) :
    parseBuffer more ctx port p = some r := by
  induction fuel generalizing more ctx port p with
  | zero => cases h
  | succ fuel ih =>
    obtain ⟨more, rfl⟩ : ∃ m, more = m + 1 := ⟨more - 1, by omega⟩
    have hle : fuel ≤ more := by omega
    rw [parseBuffer] at h ⊢
    cases hop : p.op with
    | finished => simpa [hop] using h
    | word b next =>
      simp only [hop, Option.bind_eq_some_iff] at h ⊢
      obtain ⟨ctx', hs, h⟩ := h
      exact ⟨ctx', hs, ih hle h⟩
    | debt first second next =>
      simp only [hop] at h ⊢
      exact ih hle h
    | read next =>
      simp only [hop, Option.bind_eq_some_iff] at h ⊢
      obtain ⟨r, hr, h⟩ := h
      exact ⟨r, hr, ih hle h⟩
    | wait next =>
      simp only [hop] at h ⊢
      split at h <;> rename_i hc
      · rw [if_pos hc]
        exact ih hle h
      · rw [if_neg hc]
        exact ih hle h

private theorem receive_mono {ctx : BackendCtx} {port : Port} {buffer : Nat → UInt8} {sizes : List Nat}
    {r : BackendCtx × Port} (hle : fuel ≤ more) (h : receive fuel ctx port buffer sizes = some r) :
    receive more ctx port buffer sizes = some r := by
  induction sizes generalizing ctx port buffer with
  | nil => exact h
  | cons size sizes ih =>
    rw [receive] at h ⊢
    split at h
    case isTrue hrx => rwa [if_pos hrx]
    case isFalse hrx =>
      rw [if_neg hrx]
      obtain ⟨r', hp, h⟩ := Option.bind_eq_some_iff.mp h
      rw [parseBuffer_mono hle hp]
      exact ih h

end Fuel

structure Between (ctx : BackendCtx) (port : Port) : Prop where
  whole : Whole port.rx
  backed : ctx.Backed
  debt : ctx.debt < 2 ^ 64
  outcomes : port.outcomes = []
  credit : (wordsOf port.rx).length ≤ ctx.credit

/-- Wherever a read ends in a marker alone, there is room for two words. -/
def RoomAtEnds (free : Nat) (ends : List (List UInt8)) : Prop :=
  ∀ e ∈ ends, hostDecoder.after .start e = .marked → (wordsOf e).length + 2 ≤ free

section Receive
variable {ctx : BackendCtx} {port : Port} {buffer : Nat → UInt8} {pre : List UInt8} {size : Nat}

private theorem Between.done (h : Between ctx port) (hrx : port.rx = []) :
    ctx.inputBuffer = ctx.inputBuffer ++ wordsOf port.rx ∧
      ctx.debt = (ctx.debt + creditsOf port.rx) % 2 ^ 64 := by
  rw [hrx]
  exact ⟨(List.append_nil _).symm, (Nat.mod_eq_of_lt h.debt).symm⟩

variable (buffer) in
private theorem ready_chunk (h : Between ctx port) (hpre : Whole pre)
    (hroom : hostDecoder.after .start (pre ++ port.rx.take size) = .marked →
      (wordsOf (pre ++ port.rx.take size)).length + 2 ≤ cbufFreeLevel ctx.inputBuffer + (wordsOf pre).length) :
    Ready ctx { port with rx := port.rx.drop size } (.call buffer (port.rx.take size)) := by
  have hrest := Parse.rest_call buffer (port.rx.take size)
  have happ : port.rx.take size ++ port.rx.drop size = port.rx := List.take_append_drop size port.rx
  refine ⟨Parse.ok_call _ _, ?_, h.backed, h.debt, h.outcomes, ?_, ?_⟩
  · rw [hrest, happ]
    exact h.whole
  · rw [hrest, happ]
    exact h.credit
  · rw [hrest]
    intro hm
    have := hroom ((hpre.after_append _).trans hm)
    rw [hpre.wordsOf_append, List.length_append] at this
    omega

/-- What one read and the call behind it leave for the next ones. -/
private theorem receive_chunk (h : Between ctx port) (hpre : Whole pre) (sizes : List Nat)
    (hready : Ready ctx { port with rx := port.rx.drop size } (.call buffer (port.rx.take size)))
    (hrx : port.rx ≠ []) :
    ∃ fuel ctx' port' buffer' pre' bs,
      parseBuffer fuel ctx { port with rx := port.rx.drop size } (.call buffer (port.rx.take size)) =
        some (ctx', port', buffer') ∧
      chunkEnds pre port.rx (size :: sizes) = (pre ++ port.rx.take size) :: chunkEnds pre' port'.rx sizes ∧
      Between ctx' port' ∧ Whole pre' ∧ Whole bs ∧ port.rx = bs ++ port'.rx ∧
      port'.rx.length ≤ port.rx.length - size ∧
      cbufFreeLevel ctx'.inputBuffer + (wordsOf pre').length = cbufFreeLevel ctx.inputBuffer + (wordsOf pre).length ∧
      ctx'.inputBuffer = ctx.inputBuffer ++ wordsOf bs ∧ ctx'.debt = (ctx.debt + creditsOf bs) % 2 ^ 64 := by
  obtain ⟨fuel, ctx', port', buffer', hrun, hrest, hp⟩ := parse_returns hready
  rw [Parse.rest_call] at hrest hp
  dsimp only at hrest hp
  set more := completing (hostDecoder.after .start (port.rx.take size)) (port.rx.drop size)
  have hsplit : port.rx = (port.rx.take size ++ more) ++ port'.rx := by
    rw [List.append_assoc, ← hrest, List.take_append_drop]
  have hdrop : (port.rx.drop size).drop more.length = port'.rx := by
    rw [hrest]
    exact List.drop_left
  have hwhole : Whole port'.rx := by
    have := h.whole
    rw [hsplit] at this
    exact hp.whole.append_iff.mp this
  have hdebt : ctx'.debt < 2 ^ 64 := hp.debt ▸ Nat.mod_lt _ (Nat.two_pow_pos 64)
  refine ⟨fuel, ctx', port', buffer', pre ++ (port.rx.take size ++ more), _, hrun, ?_,
    ⟨hwhole, hp.backed, hdebt, hp.outcomes, hp.credit⟩, hpre.append_iff.mpr hp.whole, hp.whole, hsplit, ?_, ?_,
    hp.input, hp.debt⟩
  · rw [chunkEnds, if_neg hrx]
    dsimp only
    rw [hpre.after_append, hdrop, List.append_assoc]
  · have := congrArg List.length hrest
    rw [List.length_drop, List.length_append] at this
    omega
  · have hfits := hp.backed.fits
    rw [hpre.wordsOf_append, List.length_append]
    rw [hp.input, List.length_append] at hfits
    simp only [cbufFreeLevel, hp.input, List.length_append]
    omega

private theorem receive_returns (sizes : List Nat) (h : Between ctx port) (hpre : Whole pre)
    (hsizes : port.rx.length ≤ sizes.sum)
    (hroom : RoomAtEnds (cbufFreeLevel ctx.inputBuffer + (wordsOf pre).length) (chunkEnds pre port.rx sizes)) :
    ∃ fuel ctx' port', receive fuel ctx port buffer sizes = some (ctx', port') ∧ port'.rx = [] ∧
      ctx'.inputBuffer = ctx.inputBuffer ++ wordsOf port.rx ∧
      ctx'.debt = (ctx.debt + creditsOf port.rx) % 2 ^ 64 := by
  induction sizes generalizing ctx port buffer pre with
  | nil =>
    have hrx : port.rx = [] := List.length_eq_zero_iff.mp (Nat.le_zero.mp hsizes)
    exact ⟨0, ctx, port, rfl, hrx, h.done hrx⟩
  | cons size sizes ih =>
    by_cases hrx : port.rx = []
    · exact ⟨0, ctx, port, by rw [receive, if_pos hrx], hrx, h.done hrx⟩
    · have hready : Ready ctx { port with rx := port.rx.drop size } (.call buffer (port.rx.take size)) := by
        refine ready_chunk _ h hpre (hroom _ ?_)
        rw [chunkEnds, if_neg hrx]
        exact List.mem_cons_self
      obtain ⟨fuel, ctx₁, port₁, buffer₁, pre₁, bs, hrun, hends, hbetween, hpre₁, hbs, hsplit, hlen, hfree,
        hin, hdebt⟩ := receive_chunk h hpre sizes hready hrx
      have hsizes₁ : port₁.rx.length ≤ sizes.sum := by
        rw [List.sum_cons] at hsizes
        omega
      have hroom₁ : RoomAtEnds (cbufFreeLevel ctx₁.inputBuffer + (wordsOf pre₁).length)
          (chunkEnds pre₁ port₁.rx sizes) := by
        rw [hfree]
        exact fun e he => hroom e (hends ▸ List.mem_cons_of_mem _ he)
      obtain ⟨fuel', ctx', port', hrun', hrx', hin', hdebt'⟩ := ih hbetween hpre₁ hsizes₁ hroom₁
      refine ⟨max fuel fuel', ctx', port', ?_, hrx', ?_, ?_⟩
      · rw [receive, if_neg hrx, parseBuffer_mono (Nat.le_max_left _ _) hrun]
        exact receive_mono (Nat.le_max_right _ _) hrun'
      · rw [hin', hin, List.append_assoc, ← hbs.wordsOf_append, ← hsplit]
      · rw [hdebt', hdebt, Nat.mod_add_mod, Nat.add_assoc, ← hbs.creditsOf_append, ← hsplit]

private theorem receive_stuck (fuel : Nat) (sizes : List Nat) (h : Between ctx port) (hpre : Whole pre)
    (hroom : ¬RoomAtEnds (cbufFreeLevel ctx.inputBuffer + (wordsOf pre).length) (chunkEnds pre port.rx sizes)) :
    receive fuel ctx port buffer sizes = none := by
  induction sizes generalizing ctx port buffer pre with
  | nil => exact (hroom (by simp [RoomAtEnds, chunkEnds])).elim
  | cons size sizes ih =>
    by_cases hrx : port.rx = []
    · exact (hroom (by simp [RoomAtEnds, chunkEnds, hrx])).elim
    · rw [receive, if_neg hrx]
      by_cases hfirst : hostDecoder.after .start (pre ++ port.rx.take size) = .marked →
          (wordsOf (pre ++ port.rx.take size)).length + 2 ≤ cbufFreeLevel ctx.inputBuffer + (wordsOf pre).length
      · obtain ⟨enough, ctx₁, port₁, buffer₁, pre₁, bs, hrun, hends, hbetween, hpre₁, -, -, -, hfree, -⟩ :=
          receive_chunk h hpre sizes (ready_chunk buffer h hpre hfirst) hrx
        rw [hends, ← hfree] at hroom
        have hrest : receive fuel ctx₁ port₁ buffer₁ sizes = none := by
          refine ih hbetween hpre₁ fun hall => hroom fun e he => ?_
          rcases List.mem_cons.mp he with rfl | he
          · rw [hfree]
            exact hfirst
          · exact hall e he
        cases hp : parseBuffer fuel ctx { port with rx := port.rx.drop size } (.call buffer (port.rx.take size)) with
        | none => rfl
        | some r =>
          have := parseBuffer_mono (Nat.le_max_left fuel enough) hp
          rw [parseBuffer_mono (Nat.le_max_right fuel enough) hrun] at this
          obtain rfl := Option.some_inj.mp this
          exact hrest
      · obtain ⟨hm, hlt⟩ := Classical.not_imp.mp hfirst
        rw [hpre.after_append] at hm
        rw [hpre.wordsOf_append, List.length_append] at hlt
        have hrest := Parse.rest_call buffer (port.rx.take size)
        have hnone : parseBuffer fuel ctx { port with rx := port.rx.drop size }
            (.call buffer (port.rx.take size)) = none :=
          parse_stuck fuel (Parse.ok_call _ _) (Parse.atLoop_call _ _) h.backed h.outcomes
            (by rw [hrest]; exact hm) (by rw [hrest]; omega)
        rw [hnone]
        rfl

end Receive

/-- However the reads cut what the target sends, `parse_buffer` stores the words and
takes over the credits, exactly if there is room for two words wherever a read ends
in a marker alone. -/
theorem chunked_parse_iff (ms : List TargetMessage) (ctx : BackendCtx) (port : Port) (buffer : Nat → UInt8)
    (sizes : List Nat) (hrx : port.rx = ms.flatMap TargetMessage.bytes) (hsizes : port.rx.length ≤ sizes.sum)
    (hout : port.outcomes = []) (hbacked : ctx.Backed) (hdebt : ctx.debt < 2 ^ 64)
    (hcredit : (words (ms.map TargetMessage.event)).length ≤ ctx.credit) :
    (∃ fuel ctx' port', receive fuel ctx port buffer sizes = some (ctx', port') ∧ port'.rx = [] ∧
      ctx'.inputBuffer = ctx.inputBuffer ++ words (ms.map TargetMessage.event) ∧
      ctx'.debt = (ctx.debt + credits (ms.map TargetMessage.event)) % 2 ^ 64) ↔
    RoomAtEnds (cbufFreeLevel ctx.inputBuffer) (chunkEnds [] port.rx sizes) := by
  obtain ⟨hafter, hevents⟩ := decode_target_messages ms
  rw [← hrx] at hafter hevents
  have hwords : wordsOf port.rx = words (ms.map TargetMessage.event) := congrArg words hevents
  have hcredits : creditsOf port.rx = credits (ms.map TargetMessage.event) := congrArg credits hevents
  have hbetween : Between ctx port := ⟨hafter, hbacked, hdebt, hout, hwords ▸ hcredit⟩
  rw [← hwords, ← hcredits]
  constructor
  · rintro ⟨fuel, ctx', port', hrun, -⟩
    by_contra hroom
    rw [receive_stuck fuel sizes hbetween whole_nil hroom] at hrun
    cases hrun
  · intro hroom
    exact receive_returns sizes hbetween whole_nil hsizes hroom

/-- A read that cuts a doubled marker, with room for more. -/
theorem chunked_parse_iff_cut :
    RoomAtEnds (cbufFreeLevel []) (chunkEnds [] [0x41, 0xfe, 0xfe] [2, 1]) ∧
      ∃ fuel ctx' port', receive fuel ⟨[], [], 0, 3⟩ ⟨[0x41, 0xfe, 0xfe], [], 0, []⟩ (fun _ => 0) [2, 1] =
          some (ctx', port') ∧ port'.rx = [] ∧ ctx'.inputBuffer = [] ++ [0x41, 0xfe] ∧
        ctx'.debt = (0 + 0) % 2 ^ 64 := by
  have hroom : RoomAtEnds (cbufFreeLevel []) (chunkEnds [] [0x41, 0xfe, 0xfe] [2, 1]) := by
    unfold RoomAtEnds
    decide +kernel
  exact ⟨hroom, (chunked_parse_iff [.word 0x41, .word 0xfe] ⟨[], [], 0, 3⟩ ⟨[0x41, 0xfe, 0xfe], [], 0, []⟩
    (fun _ => 0) [2, 1] rfl (by decide) rfl ⟨by decide, by decide⟩ (by decide) (by decide)).mpr hroom⟩

def nearlyFull : BackendCtx := ⟨List.replicate 32767 0, [], 0, 1⟩

/-- A credit message that is cut behind its marker is never read to its end if the
input buffer has room for one word only, although it brings no word at all. -/
theorem chunked_parse_waits :
    nearlyFull.Backed ∧ (words ([TargetMessage.credit 5].map TargetMessage.event)).length ≤ nearlyFull.credit ∧
      ∀ fuel buffer, receive fuel nearlyFull ⟨[TargetMessage.credit 5].flatMap TargetMessage.bytes, [], 0, []⟩
        buffer [1, 2] = none := by
  have hlen : nearlyFull.inputBuffer.length = 32767 := List.length_replicate
  have hfree : cbufFreeLevel nearlyFull.inputBuffer = 1 := by rw [cbufFreeLevel, hlen, uartBufSize_eq]
  have hcredit : nearlyFull.credit = 1 := rfl
  have hbacked : nearlyFull.Backed := ⟨by rw [hlen, uartBufSize_eq]; decide, by rw [hfree, hcredit]⟩
  have hwhole : Whole ([TargetMessage.credit 5].flatMap TargetMessage.bytes) :=
    (decode_target_messages [.credit 5]).1
  refine ⟨hbacked, Nat.zero_le _, fun fuel buffer => ?_⟩
  apply receive_stuck fuel [1, 2] ⟨hwhole, hbacked, by decide, rfl, Nat.zero_le _⟩ whole_nil
  intro hroom
  have := hroom [0xfe] (by decide +kernel) (by decide)
  rw [hfree] at this
  exact absurd this (by decide)

end Glip.Uart
