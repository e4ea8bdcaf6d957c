import Glip.CircularBuffer.SharedBuffer

/-! The fill level that the consumer is told. `cbuf_fill_level` first asks whether
the buffer is full and then subtracts the pointers; in between the producer may
fill the buffer, and the masked subtraction of a full buffer gives 0. -/
namespace Glip.CircularBuffer
open Foundation Prog

/-- The first four loads of a call, when they see the buffer fill up: it was not
full when `cbuf_is_full` looked and is full when the pointers are subtracted. -/
def Race (size : Nat) : List Cbuf → Prop
  | t₁ :: _ :: t₃ :: _ => used size t₁ < size ∧ used size t₃ = size
  | _ => False

def Request.wants : Request → Option Nat
  | read n => some n
  | peek _ n _ => some n
  | discard n => some n
  | _ => none

/-- The call after `log` was told no less than there was when it began, and did
not fail although the consumer knew of enough bytes. -/
def LevelHolds (size : Nat) (log : List Entry) (d : Entry) : Prop :=
  (∀ v, d.result = .level v → used size d.origin ≤ v) ∧
    ∀ n, d.request.wants = some n → n ≤ (seenBy log).known → d.result.rc ≠ some .einval

/-- The buffer filled up between the loads of a call for which it matters. -/
def Torn (size : Nat) (log : List Entry) (d : Entry) : Prop :=
  Race size d.seen ∧ ((d.request = .fillLevel ∧ 0 < used size d.origin) ∨
    ∃ n, d.request.wants = some n ∧ 0 < n ∧ n ≤ (seenBy log).known)

section
variable {size : Nat} {oom : Prop} {s s' : Cbuf} {ts : List Cbuf} {v : Nat}

theorem trace_load {f : Cbuf → Nat} {rely : Cbuf → Cbuf → Prop} {a : Nat}
    (h : Trace rely ts (atomic fun s => some (f s, s)) s (.ret a) s') :
    ts = [s'] ∧ rely s s' ∧ a = f s' := by
  obtain ⟨t, rfl, hr, ht⟩ := trace_atomic h
  simp only [Option.some.injEq, Prod.mk.injEq] at ht
  obtain ⟨rfl, rfl⟩ := ht
  exact ⟨rfl, hr, rfl⟩

theorem trace_isFull (hs : IsSize size) (h : Ok size oom s) {full : Bool}
    (htr : Trace (ReaderRely size oom) ts (isFull size) s (.ret full) s') :
    ∃ t₁, ts = [t₁, s'] ∧ ReaderRely size oom s t₁ ∧ ReaderRely size oom t₁ s' ∧
      (full ↔ used size t₁ = size) := by
  obtain ⟨ts₁, ts₂, wr, t₁, rfl, hwr, hrest⟩ := trace_bind htr
  obtain ⟨rfl, hr₁, rfl⟩ := trace_load hwr
  obtain ⟨ts₁, ts₂, rd, t₂, rfl, hrd, hend⟩ := trace_bind hrest
  obtain ⟨rfl, hr₂, rfl⟩ := trace_load hrd
  obtain ⟨rfl, rfl, rfl⟩ := trace_pure hend
  refine ⟨t₁, rfl, hr₁, hr₂, ?_⟩
  have hok := hr₁.ok h
  rw [beq_iff_eq, hr₂.rd]
  exact full_iff hs hok.wr hok.rd

/-- The level is the number of bytes at one of the loads, or the buffer filled up
between the loads and the level is 0. -/
theorem trace_fillLevel (hs : IsSize size) (h : Ok size oom s)
    (htr : Trace (ReaderRely size oom) ts (fillLevel size) s (.ret v) s') :
    (v = 0 ∧ ∀ rest, Race size (ts ++ rest)) ∨ (used size s ≤ v ∧ ∀ rest, ¬Race size (ts ++ rest)) := by
  obtain ⟨ts₁, ts₂, full, t₂, rfl, hfull, hrest⟩ := trace_bind htr
  obtain ⟨t₁, rfl, hr₁, hr₂, hiff⟩ := trace_isFull hs h hfull
  have hok₁ := hr₁.ok h
  by_cases hf : full
  · rw [if_pos hf] at hrest
    obtain ⟨rfl, rfl, rfl⟩ := trace_pure hrest
    refine .inr ⟨h.fill, fun rest hrace => ?_⟩
    have hlt : used size t₁ < size := by
      cases rest with
      | nil => exact hrace.elim
      | cons t₃ rest => exact hrace.1
    exact hlt.ne (hiff.mp hf)
  · rw [if_neg hf] at hrest
    obtain ⟨ts₁, ts₂, wr, t₃, rfl, hwr, hsub⟩ := trace_bind hrest
    obtain ⟨rfl, hr₃, rfl⟩ := trace_load hwr
    obtain ⟨ts₁, ts₂, rd, t₄, rfl, hrd, hend⟩ := trace_bind hsub
    obtain ⟨rfl, hr₄, rfl⟩ := trace_load hrd
    obtain ⟨rfl, rfl, rfl⟩ := trace_pure hend
    have hok₃ := hr₃.ok (hr₂.ok hok₁)
    have hlt : used size t₁ < size := lt_of_le_of_ne hok₁.fill fun he => hf (hiff.mpr he)
    have hle : used size s ≤ used size t₃ := hr₁.used.trans (hr₂.used.trans hr₃.used)
    rw [hr₄.rd, levelOf_eq hs hok₃.wr hok₃.rd hok₃.fill]
    split
    · exact .inl ⟨rfl, fun rest => ⟨hlt, ‹_›⟩⟩
    · exact .inr ⟨hle, fun rest hrace => ‹¬_› hrace.2⟩

/-- A call that first looks at the level and fails when it is too low. -/
private theorem trace_guarded (hs : IsSize size) (h : Ok size oom s) {β : Type} {n : Nat} {a : Result} {early : β}
    {rest : Nat → Prog Cbuf β} {k : β → Prog Cbuf Result} (hn : n ≤ used size s)
    (htr : Trace (ReaderRely size oom) ts
      ((fillLevel size >>= fun v => if v < n then pure early else rest v) >>= k) s (.ret a) s')
    (hearly : Ends (fun a => a.rc = some .einval) (k early))
    (hrest : ∀ v, Ends (fun b => Ends (fun a => a.rc ≠ some .einval) (k b)) (rest v)) :
    a.rc = some .einval ↔ 0 < n ∧ Race size ts := by
  obtain ⟨ts₁, ts₂, b, u, rfl, hguard, hk⟩ := trace_bind htr
  obtain ⟨ts₃, ts₄, v, t, rfl, hlevel, hafter⟩ := trace_bind hguard
  rw [List.append_assoc]
  by_cases hv : v < n
  · rw [if_pos hv] at hafter
    obtain ⟨-, rfl, rfl⟩ := trace_pure hafter
    obtain ⟨-, hrace⟩ | ⟨hle, -⟩ := trace_fillLevel hs h hlevel
    · exact iff_of_true (hearly.of_trace hk) ⟨by omega, hrace _⟩
    · omega
  · rw [if_neg hv] at hafter
    refine iff_of_false (((hrest v).of_trace hafter).of_trace hk) fun ⟨hpos, hr⟩ => ?_
    obtain ⟨rfl, -⟩ | ⟨-, hno⟩ := trace_fillLevel hs h hlevel
    · exact hv hpos
    · exact hno _ hr

/-- A call for no bytes at all succeeds without a look at the level. -/
private theorem trace_zero {p : Prog Cbuf Result} {a : Result} (hp : Ends (fun a => a.rc ≠ some .einval) p)
    (htr : Trace (ReaderRely size oom) ts p s (.ret a) s') : a.rc = some .einval ↔ 0 < 0 ∧ Race size ts :=
  iff_of_false (hp.of_trace htr) fun h => lt_irrefl 0 h.1

/-- A call for bytes that were there at its start fails exactly when the buffer fills up between its loads. -/
theorem trace_wants (hs : IsSize size) (h : Ok size oom s) {r : Request} {n : Nat} {a : Result}
    (hr : r.wants = some n) (hn : n ≤ used size s)
    (htr : Trace (ReaderRely size oom) ts (perform size r) s (.ret a) s') :
    a.rc = some .einval ↔ 0 < n ∧ Race size ts := by
  cases r with
  | read m =>
    obtain rfl : m = n := by simpa [Request.wants] using hr
    simp only [perform, cbufRead] at htr
    rcases Nat.eq_zero_or_pos m with rfl | hpos
    · refine trace_zero ?_ htr
      rw [if_pos rfl, pure_bind]
      exact ends_pure.mpr (by decide)
    · rw [if_neg hpos.ne'] at htr
      refine trace_guarded hs h hn htr (ends_pure.mpr rfl) fun v => ends_bind fun bs => ends_bind fun _ => ?_
      exact ends_pure.mpr (ends_pure.mpr fun h => by cases h)
  | peek alloc m k =>
    obtain rfl : m = n := by simpa [Request.wants] using hr
    simp only [perform, peekBytes, cbufPeek] at htr
    rw [bind_assoc] at htr
    rcases Nat.eq_zero_or_pos m with rfl | hpos
    · refine trace_zero ?_ htr
      rw [if_pos rfl, pure_bind, pure_bind]
      exact ends_pure.mpr (by decide)
    · rw [if_neg hpos.ne'] at htr
      have hdone (ptr : Ptr) : Ends (fun a : Result => a.rc ≠ some .einval)
          ((loadThrough ptr k >>= fun bs => pure (Rc.ok, bs)) >>= fun r => pure (.bytes r.1 r.2)) := by
        rw [bind_assoc]
        exact ends_bind fun bs => ends_pure.mpr fun h => by cases h
      have hfail {rc : Rc} {P : Result → Prop} (h : P (.bytes rc [])) :
          Ends P ((pure (rc, []) : Prog Cbuf (Rc × List UInt8)) >>= fun r => pure (.bytes r.1 r.2)) := by
        rw [pure_bind]
        exact ends_pure.mpr h
      refine trace_guarded hs h hn htr (hfail rfl) fun v => ends_bind fun rd => Ends.ite ?_ ?_
      · exact ends_bind fun rd => ends_pure.mpr (hdone _)
      · refine ends_bind fun ok => Ends.ite ?_ (ends_pure.mpr ?_)
        · exact ends_bind fun _ => ends_bind fun ptr => ends_pure.mpr (hdone ptr)
        · exact hfail (by decide)
  | discard m =>
    obtain rfl : m = n := by simpa [Request.wants] using hr
    simp only [perform, cbufDiscard] at htr
    refine trace_guarded hs h hn htr (ends_pure.mpr rfl) fun v => ends_bind fun _ => ?_
    exact ends_pure.mpr (ends_pure.mpr fun h => by cases h)
  | _ => cases hr

/-- Only a fill level request returns a level to the consumer. -/
private theorem trace_level {r : Request} (hr : Side.consumer.Calls r)
    (htr : Trace (ReaderRely size oom) ts (perform size r) s (.ret (.level v)) s') :
    r = .fillLevel ∧ ∃ t, Trace (ReaderRely size oom) ts (fillLevel size) s (.ret v) t := by
  cases r with
  | fillLevel =>
    obtain ⟨ts₁, ts₂, w, t, rfl, hlevel, hend⟩ := trace_bind htr
    obtain ⟨rfl, hw, -⟩ := trace_pure hend
    obtain rfl : w = v := by simpa using hw
    rw [List.append_nil]
    exact ⟨rfl, t, hlevel⟩
  | setHintMaxReadSize hint =>
    have hend : Ends (fun a => a ≠ .level v) (perform size (.setHintMaxReadSize hint)) :=
      ends_bind fun _ => ends_pure.mpr fun h => by cases h
    exact (hend.of_trace htr rfl).elim
  | read n =>
    have hend : Ends (fun a => a ≠ .level v) (perform size (.read n)) := ends_bind fun _ => ends_pure.mpr fun h => by cases h
    exact (hend.of_trace htr rfl).elim
  | peek alloc n m =>
    have hend : Ends (fun a => a ≠ .level v) (perform size (.peek alloc n m)) :=
      ends_bind fun _ => ends_pure.mpr fun h => by cases h
    exact (hend.of_trace htr rfl).elim
  | discard n =>
    have hend : Ends (fun a => a ≠ .level v) (perform size (.discard n)) := ends_bind fun _ => ends_pure.mpr fun h => by cases h
    exact (hend.of_trace htr rfl).elim
  | _ => exact hr.elim

end

/-- In every interleaving a call of the consumer is told enough, and does not fail
for want of bytes that it knew of, exactly when the buffer does not fill up between
the loads of that call. -/
theorem fill_level_holds_iff (k : Nat) (hk : k ≤ 62) (oom : Prop) (p : Pool Side Request Cbuf Result)
    (h : Pool.Reachable (perform (2 ^ k)) (may oom) (newCbuf (2 ^ k)) p) (pre post : List Entry) (d : Entry)
    (hd : p.log .consumer = pre ++ d :: post) :
    LevelHolds (2 ^ k) pre d ↔ ¬Torn (2 ^ k) pre d := by
  have hs : IsSize (2 ^ k) := ⟨k, hk, rfl⟩
  obtain ⟨⟨hmay, log, rfl, hinv⟩, s', htr⟩ :=
    ((sharing hs True (.inl trivial)).sound (shared_newCbuf hs) (h.mono may_mono)).finished .consumer pre d post hd
  have hinv : Shared (2 ^ k) True d.origin log := hinv
  have hwants n (hn : d.request.wants = some n) (hle : n ≤ (seenBy (log .consumer)).known) :=
    trace_wants hs hinv.ok hn (hle.trans hinv.known) htr
  constructor
  · rintro ⟨hlevel, hrc⟩ ⟨hrace, ⟨hreq, hpos⟩ | ⟨n, hn, hpos, hle⟩⟩
    · rw [hreq] at htr
      obtain ⟨ts₁, ts₂, v, t, hts, hload, hend⟩ := trace_bind htr
      obtain ⟨rfl, hv, -⟩ := trace_pure hend
      have hle := hlevel v hv.symm
      rw [hts] at hrace
      obtain ⟨rfl, -⟩ | ⟨-, hno⟩ := trace_fillLevel hs hinv.ok hload
      · omega
      · exact hno _ hrace
    · exact hrc n hn hle ((hwants n hn hle).mpr ⟨hpos, hrace⟩)
  · refine fun htorn => ⟨fun v hv => ?_, fun n hn hle hrc => ?_⟩
    · rw [hv] at htr
      obtain ⟨hreq, t, hload⟩ := trace_level hmay.1 htr
      obtain ⟨-, hrace⟩ | ⟨hle, -⟩ := trace_fillLevel hs hinv.ok hload
      · refine Nat.le_of_not_lt fun hlt => htorn ⟨?_, .inl ⟨hreq, by omega⟩⟩
        simpa using hrace []
      · exact hle
    · obtain ⟨hpos, hrace⟩ := (hwants n hn hle).mp hrc
      exact htorn ⟨hrace, .inr ⟨n, hn, hpos, hle⟩⟩

def tearing : List (Side × Option Request) :=
  [(.producer, some (.write [1]))] ++ Side.producer.steps 8 ++
    [(.consumer, some .fillLevel)] ++ Side.consumer.steps 2 ++
    [(.producer, some (.write [2]))] ++ Side.producer.steps 8 ++ Side.consumer.steps 2 ++
    [(.consumer, some (.read 1))] ++ Side.consumer.steps 6 ++
    [(.consumer, some .fillLevel)] ++ Side.consumer.steps 4 ++
    [(.consumer, some (.read 1))] ++ Side.consumer.steps 2 ++
    [(.producer, some (.write [3]))] ++ Side.producer.steps 8 ++ Side.consumer.steps 2

private theorem tearing_plays : ((Pool.start (newCbuf 2)).play (perform 2) tearing).isSome := by
  decide +kernel

private theorem tearing_legal (i : Side) (r : Request) (h : (i, some r) ∈ tearing) (log : List Entry) :
    may False i log r := by
  simp only [tearing, Side.steps, List.mem_append, List.mem_singleton, List.mem_replicate, Prod.mk.injEq,
    reduceCtorEq, and_false, or_false, Option.some_inj] at h
  rcases h with (((((⟨rfl, rfl⟩ | ⟨rfl, rfl⟩) | ⟨rfl, rfl⟩) | ⟨rfl, rfl⟩) | ⟨rfl, rfl⟩) | ⟨rfl, rfl⟩) |
    ⟨rfl, rfl⟩ <;> exact ⟨trivial, trivial⟩

private theorem entry_split (log : List Entry) (i : Fin log.length) :
    log = log.take i ++ log.get i :: log.drop (i + 1) := by
  rw [List.get_eq_getElem, List.getElem_cons_drop, List.take_append_drop]

def tornPool : Pool Side Request Cbuf Result :=
  ((Pool.start (newCbuf 2)).play (perform 2) tearing).get tearing_plays

private theorem tornPool_log : (tornPool.log .consumer).length = 4 := by decide +kernel

def tornEntry (i : Fin 4) : Entry := (tornPool.log .consumer).get (i.cast tornPool_log.symm)

private theorem tornEntry_split (i : Fin 4) :
    tornPool.log .consumer =
      (tornPool.log .consumer).take i ++ tornEntry i :: (tornPool.log .consumer).drop (i + 1) :=
  entry_split _ _

/-- The consumer is told of no byte although there is one, and later a read of the
one byte that it knows of fails. -/
theorem fill_level_torn :
    ∃ p : Pool Side Request Cbuf Result, Pool.Reachable (perform 2) (may False) (newCbuf 2) p ∧
      (∃ pre d post, p.log .consumer = pre ++ d :: post ∧ ¬LevelHolds 2 pre d ∧
        d.request = .fillLevel ∧ d.result = .level 0 ∧ used 2 d.origin = 1) ∧
      (∃ pre d post, p.log .consumer = pre ++ d :: post ∧ ¬LevelHolds 2 pre d ∧
        d.request = .read 1 ∧ (seenBy pre).known = 1 ∧ d.result = .bytes .einval []) := by
  refine ⟨tornPool, Pool.get_play_reachable tearing_plays tearing_legal, ?_, ?_⟩
  · have hres : (tornEntry 0).result = .level 0 := by decide +kernel
    have hused : used 2 (tornEntry 0).origin = 1 := by decide +kernel
    refine ⟨_, tornEntry 0, _, tornEntry_split 0, fun hholds => ?_, rfl, hres, hused⟩
    have hle := hholds.1 0 hres
    omega
  · have hres : (tornEntry 3).result = .bytes .einval [] := by decide +kernel
    have hknown : (seenBy ((tornPool.log .consumer).take 3)).known = 1 := by decide +kernel
    refine ⟨_, tornEntry 3, _, tornEntry_split 3, fun hholds => ?_, rfl, hknown, hres⟩
    exact hholds.2 1 rfl hknown.ge (by rw [hres]; rfl)

theorem fill_level_holds_iff_tearing :
    LevelHolds 2 ((tornPool.log .consumer).take 1) (tornEntry 1) ↔
      ¬Torn 2 ((tornPool.log .consumer).take 1) (tornEntry 1) :=
  fill_level_holds_iff 1 (by decide) False tornPool (Pool.get_play_reachable tearing_plays tearing_legal)
    _ _ _ (tornEntry_split 1)

end Glip.CircularBuffer
