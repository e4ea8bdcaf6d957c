import Glip.CircularBuffer.FillLevelRace
import Glip.CircularBuffer.QueueRefinement
import Glip.CircularBuffer.SizeArithmetic

/-! The bytes that one consumer gets from one producer. On the largest buffers the distance to the end of the array,
which `cbuf_read` and `cbuf_peek` keep in an `int`, may be too large for it. -/
namespace Glip.CircularBuffer
open Foundation Prog

def levelSeen (size : Nat) : List Cbuf → Nat
  | t₁ :: t₂ :: rest =>
    if t₁.wrPtr = t₂.rdPtr ^^^ size then size else
    match rest with
    | t₃ :: t₄ :: _ => levelOf size t₃.wrPtr t₄.rdPtr
    | _ => 0
  | _ => 0

/-- Where a call finds the bytes that it is to look at, they lie in one piece or the end of the array is less than
2 ^ 31 bytes away. -/
def LooksNear (size : Nat) (d : Entry) : Prop :=
  ∀ n, d.request.looks = some n → n ≤ levelSeen size d.seen → Near size d.origin.rdPtr n

section
variable {size n v : Nat} {rely : Cbuf → Cbuf → Prop} {s s' : Cbuf} {ts : List Cbuf} {a : Result}

theorem trace_levelSeen (h : Trace rely ts (fillLevel size) s (.ret v) s') (rest : List Cbuf) :
    levelSeen size (ts ++ rest) = v := by
  obtain ⟨ts₁, ts₂, full, t₂, rfl, hfull, hrest⟩ := trace_bind h
  obtain ⟨_, _, wr, t₁, rfl, hwr, hload⟩ := trace_bind hfull
  obtain ⟨rfl, -, rfl⟩ := trace_load hwr
  obtain ⟨_, _, rd, u, rfl, hrd, hend⟩ := trace_bind hload
  obtain ⟨rfl, -, rfl⟩ := trace_load hrd
  obtain ⟨rfl, rfl, rfl⟩ := trace_pure hend
  by_cases hf : t₁.wrPtr = u.rdPtr ^^^ size
  · rw [if_pos (beq_iff_eq.mpr hf)] at hrest
    obtain ⟨rfl, rfl, rfl⟩ := trace_pure hrest
    exact if_pos hf
  · rw [if_neg (mt beq_iff_eq.mp hf)] at hrest
    obtain ⟨_, _, wr, t₃, rfl, hwr, hsub⟩ := trace_bind hrest
    obtain ⟨rfl, -, rfl⟩ := trace_load hwr
    obtain ⟨_, _, rd, t₄, rfl, hrd, hend⟩ := trace_bind hsub
    obtain ⟨rfl, -, rfl⟩ := trace_load hrd
    obtain ⟨rfl, rfl, rfl⟩ := trace_pure hend
    exact if_neg hf

/-- A call that goes on only where the level is not too low. -/
private theorem trace_found {β : Type} {early : β} {rest : Nat → Prog Cbuf β} {k : β → Prog Cbuf Result}
    (h : Trace rely ts ((fillLevel size >>= fun v => if v < n then pure early else rest v) >>= k) s (.ret a) s')
    (hearly : Ends (fun a => a.rc ≠ some .ok) (k early)) (hrc : a.rc = some .ok) : n ≤ levelSeen size ts := by
  obtain ⟨ts₁, ts₂, b, u, rfl, hguard, hk⟩ := trace_bind h
  obtain ⟨ts₃, ts₄, v, t, rfl, hlevel, hafter⟩ := trace_bind hguard
  rw [List.append_assoc, trace_levelSeen hlevel]
  by_contra hlt
  rw [if_pos (Nat.lt_of_not_le hlt)] at hafter
  obtain ⟨-, rfl, -⟩ := trace_pure hafter
  exact hearly.of_trace hk hrc

/-- The bytes that a call has looked at it has found. -/
theorem trace_looks {r : Request} (hr : r.looks = some n)
    (h : Trace rely ts (perform size r) s (.ret a) s') (hrc : a.rc = some .ok) : n ≤ levelSeen size ts := by
  rcases Nat.eq_zero_or_pos n with rfl | hpos
  · exact Nat.zero_le _
  cases r with
  | read m =>
    obtain rfl : m = n := Option.some.inj hr
    simp only [perform, cbufRead] at h
    rw [if_neg hpos.ne'] at h
    exact trace_found h (ends_pure.mpr (by decide)) hrc
  | peek alloc m k =>
    obtain rfl : m = n := Option.some.inj hr
    simp only [perform, peekBytes, cbufPeek] at h
    rw [bind_assoc, if_neg hpos.ne'] at h
    refine trace_found h ?_ hrc
    rw [pure_bind]
    exact ends_pure.mpr (by decide)
  | _ => cases hr

/-- In a buffer of up to 2 ^ 31 bytes that is every call. -/
theorem looksNear_of_le (hs : IsSize size) (hsmall : size ≤ 2 ^ 31) (d : Entry) : LooksNear size d := by
  intro n hn hle
  have hlevel : levelSeen size d.seen ≤ size := by
    unfold levelSeen
    split
    · split
      · exact le_rfl
      · split
        · exact (levelOf_lt hs _ _).le
        · exact Nat.zero_le _
    · exact Nat.zero_le _
  unfold Near
  omega

end

/-- Whatever the interleaving, the consumer gets the bytes that the producer wrote, in order, and the bytes that it
has not got yet are those in the buffer, as long as no call wraps far before the end of the array. -/
theorem shared_cbuf_fifo (k : Nat) (hk : k ≤ 62) (oom : Prop) (p : Pool Side Request Cbuf Result)
    (h : Pool.Reachable (perform (2 ^ k)) (may oom) (newCbuf (2 ^ k)) p)
    (hnear : ∀ d ∈ p.log .consumer, LooksNear (2 ^ k) d) (hcov : (seenBy (p.log .consumer)).covered) :
    (seenBy (p.log .consumer)).returned <+: written (p.log .producer) ∧
      written (p.log .producer) = (seenBy (p.log .consumer)).returned ++ contents (2 ^ k) p.shared := by
  have hs : IsSize (2 ^ k) := ⟨k, hk, rfl⟩
  have hholds := (sharing hs True (.inl trivial)).sound (shared_newCbuf hs) (h.mono may_mono)
  have hinv : Shared (2 ^ k) True p.shared p.log := hholds.inv
  have hall : AllNear (2 ^ k) (p.log .consumer) := by
    intro pre d post hd n hn hrc
    obtain ⟨⟨-, logs, rfl, hbegan⟩, s', htr⟩ := hholds.finished .consumer pre d post hd
    have hbegan : Shared (2 ^ k) True d.origin logs := hbegan
    have hd := hnear d (by simp [hd]) n hn (trace_looks hn htr hrc)
    rwa [Near, hbegan.rd] at hd
  obtain ⟨taken, hq, hknows⟩ := hinv.queue hall
  rw [hknows.returned hcov] at hq
  exact ⟨hq ▸ List.prefix_append _ _, hq⟩

def overlapping : List (Side × Option Request) :=
  [(.producer, some (.write [1]))] ++ Side.producer.steps 8 ++ [(.producer, some (.write [2]))] ++
    Side.producer.steps 6 ++ [(.consumer, some (.read 1))] ++ Side.consumer.steps 3 ++
    Side.producer.steps 2 ++ Side.consumer.steps 5

private theorem overlapping_plays : ((Pool.start (newCbuf 4)).play (perform 4) overlapping).isSome := by
  decide +kernel

private theorem overlapping_legal (i : Side) (r : Request) (h : (i, some r) ∈ overlapping) (log : List Entry) :
    may False i log r := by
  simp only [overlapping, Side.steps, List.mem_append, List.mem_singleton, List.mem_replicate, Prod.mk.injEq,
    reduceCtorEq, and_false, or_false, Option.some_inj] at h
  rcases h with (⟨rfl, rfl⟩ | ⟨rfl, rfl⟩) | ⟨rfl, rfl⟩ <;> exact ⟨trivial, trivial⟩

theorem shared_cbuf_fifo_overlapping :
    ∃ p : Pool Side Request Cbuf Result, Pool.Reachable (perform 4) (may False) (newCbuf 4) p ∧
      (seenBy (p.log .consumer)).returned = [1] ∧ written (p.log .producer) = [1, 2] ∧
      ((seenBy (p.log .consumer)).returned <+: written (p.log .producer) ∧
        written (p.log .producer) = (seenBy (p.log .consumer)).returned ++ contents 4 p.shared) :=
  have hreach := Pool.get_play_reachable overlapping_plays overlapping_legal
  ⟨_, hreach, by decide +kernel, by decide +kernel, shared_cbuf_fifo 2 (by decide) False _ hreach
    (fun d _ => looksNear_of_le ⟨2, by decide, rfl⟩ (by decide) d) (by decide +kernel)⟩

section
variable {size n m : Nat} {s : Cbuf} {p : Pool Side Request Cbuf Result}

/-- Where the `int` has lost the distance to the end of the array, all the bytes are taken from its beginning. -/
theorem cbufRead_wrapped (hs : IsSize size) (h : Ok size False s) (hpos : 0 < n) (hn : n ≤ used size s)
    (hsplit : Splits size s.rdPtr n) (hend : atEnd size s.rdPtr = 0) (hstart : atStart size s.rdPtr n = n) :
    ∃ t, (cbufRead size n).run s = some ((.ok, segment s.data.byte 0 n), t) := by
  have hle : n ≤ size := hn.trans h.fill
  have hcopy : (copyOut size n).run s = some (segment s.data.byte 0 n, s) := by
    rw [copyOut_segments s hsplit, hend, hstart, Block.load_eq (by rw [h.len, index_eq hs]; exact (Nat.mod_lt _ hs.pos).le),
      Option.bind_some, Block.load_eq (by rw [h.len]; omega)]
    rfl
  rw [cbufRead, if_neg hpos.ne']
  simp only [run_bind, fillLevel_run, Option.bind_some, levelIn_eq_used hs h, if_neg (Nat.not_lt.mpr hn), hcopy,
    advanceRd, run_atomic, run_pure]
  exact ⟨_, rfl⟩

structure Resting (size : Nat) (p : Pool Side Request Cbuf Result) : Prop where
  reachable : Pool.Reachable (perform size) (may False) (newCbuf size) p
  idle : p.calls = fun _ => none
  ok : Ok size False p.shared

private theorem Resting.inv (h : Resting size p) (hs : IsSize size) : Shared size True p.shared p.log :=
  ((sharing hs True (.inl trivial)).sound (shared_newCbuf hs) (h.reachable.mono may_mono)).inv

private theorem Resting.write (h : Resting size p) (hs : IsSize size) (bs : List UInt8)
    (hroom : used size p.shared + bs.length ≤ size) :
    ∃ q, Resting size q ∧ contents size q.shared = contents size p.shared ++ bs ∧ q.log .consumer = p.log .consumer := by
  obtain ⟨t, hrun, hok, hcont⟩ := cbufWrite_run hs h.ok bs
  rw [if_pos hroom] at hrun hcont
  have hrun : (perform size (.write bs)).run p.shared = some (.code .ok, t) := by
    rw [perform, run_bind, hrun]
    rfl
  have hmay : may False .producer (p.log .producer) (.write bs) := ⟨trivial, trivial⟩
  obtain ⟨d, -, -, hq⟩ := h.reachable.run h.idle hmay hrun
  have hlog : Function.update p.log .producer (p.log .producer ++ [d]) .consumer = p.log .consumer :=
    Function.update_of_ne (by decide) _ _
  exact ⟨_, ⟨hq, rfl, hok⟩, hcont, hlog⟩

private theorem Resting.read (h : Resting size p) (hs : IsSize size) (hnear : Near size p.shared.rdPtr n)
    (hn : n ≤ used size p.shared) :
    ∃ q d bs, Resting size q ∧ contents size q.shared = (contents size p.shared).drop n ∧
      q.log .consumer = p.log .consumer ++ [d] ∧ d.request = .read n ∧ d.result = .bytes .ok bs := by
  obtain ⟨t, hrun, hok, hcont⟩ := cbufRead_run hs (fun _ => hnear) h.ok
  rw [if_pos hn] at hrun hcont
  have hrun : (perform size (.read n)).run p.shared = some (.bytes .ok ((contents size p.shared).take n), t) := by
    rw [perform, run_bind, hrun]
    rfl
  have hmay : may False .consumer (p.log .consumer) (.read n) := ⟨trivial, trivial⟩
  obtain ⟨d, hreq, hres, hq⟩ := h.reachable.run h.idle hmay hrun
  exact ⟨_, d, _, ⟨hq, rfl, hok⟩, hcont, Function.update_self Side.consumer _ p.log, hreq, hres⟩

/-- Half of a buffer is written and read, and then any bytes are written. -/
private theorem half_way (hs : IsSize (2 * m)) (zs bs : List UInt8) (hzs : zs.length = m) (hbs : bs.length ≤ 2 * m) :
    ∃ p, Resting (2 * m) p ∧ p.shared.rdPtr ≡ m [MOD 2 * m] ∧ contents (2 * m) p.shared = bs ∧
      (seenBy (p.log .consumer)).covered ∧ written (p.log .producer) = (seenBy (p.log .consumer)).returned ++ bs := by
  have hnear : Near (2 * m) 0 m := .inl (by rw [Nat.zero_mod]; omega)
  have hstart : Resting (2 * m) (.start (newCbuf (2 * m))) := ⟨.refl, rfl, newCbuf_ok hs⟩
  have hempty : contents (2 * m) (Pool.start (newCbuf (2 * m)) : Pool Side Request Cbuf Result).shared = [] :=
    newCbuf_contents (2 * m)
  obtain ⟨p₁, h₁, hc₁, hlog₁⟩ := hstart.write hs zs (by rw [← contents_length, hempty, List.length_nil]; omega)
  rw [hempty, List.nil_append] at hc₁
  have hused₁ : used (2 * m) p₁.shared = m := by rw [← contents_length, hc₁, hzs]
  have hrd₁ : p₁.shared.rdPtr ≡ 0 [MOD 2 * m] := by
    have hrd := (h₁.inv hs).rd
    rwa [hlog₁] at hrd
  obtain ⟨p₂, d, as, h₂, hc₂, hlog₂, hreq, hres⟩ := h₁.read hs (n := m) (by rwa [Near, hrd₁]) hused₁.ge
  rw [List.drop_eq_nil_of_le (by rw [contents_length, hused₁])] at hc₂
  obtain ⟨p₃, h₃, hc₃, hlog₃⟩ := h₂.write hs bs (by rw [← contents_length, hc₂, List.length_nil]; omega)
  rw [hc₂, List.nil_append] at hc₃
  have hlog : p₃.log .consumer = [d] := by rw [hlog₃, hlog₂, hlog₁]; rfl
  have hinv := h₃.inv hs
  have htaken : takenBy (p₃.log .consumer) = m := by simp [hlog, takenBy, takes, hreq, hres]
  have hcov : (seenBy (p₃.log .consumer)).covered := by simp [hlog, seenBy, Seen.after, hreq, hres]
  have hall : AllNear (2 * m) (p₃.log .consumer) := by
    intro pre e post he n hn _
    rw [hlog] at he
    cases pre with
    | nil =>
      obtain ⟨rfl, -⟩ := List.cons.inj he
      rw [hreq] at hn
      obtain rfl := Option.some.inj hn
      exact hnear
    | cons x pre => simp at he
  obtain ⟨taken, hq, hknows⟩ := hinv.queue hall
  rw [hknows.returned hcov, hc₃] at hq
  exact ⟨p₃, h₃, htaken ▸ hinv.rd, hc₃, hcov, hq⟩

end

/-- In a buffer of 2 ^ 33 bytes whose read pointer has come to the half, 2 ^ 32 + 1 bytes are written, the last of
which is 1 and lies at the beginning of the array; a read of them returns that byte first. -/
theorem shared_cbuf_reorders :
    ∃ p : Pool Side Request Cbuf Result, Pool.Reachable (perform (2 ^ 33)) (may False) (newCbuf (2 ^ 33)) p ∧
      (seenBy (p.log .consumer)).covered ∧ ¬(seenBy (p.log .consumer)).returned <+: written (p.log .producer) := by
  have hs : IsSize (2 * 2 ^ 32) := ⟨33, by decide, by decide⟩
  obtain ⟨zs, hzs, hfirst⟩ : ∃ zs : List UInt8, zs.length = 2 ^ 32 ∧ zs[0]? = some 0 :=
    ⟨List.replicate (2 ^ 32) 0, List.length_replicate, by rw [List.getElem?_replicate, if_pos (by decide)]⟩
  have hlen : (zs ++ [1]).length = 2 ^ 32 + 1 := by rw [List.length_append, hzs, List.length_singleton]
  obtain ⟨p, h, hrd, hcont, hcov, hwritten⟩ := half_way hs zs (zs ++ [1]) hzs (by omega)
  have hindex : index (2 * 2 ^ 32) p.shared.rdPtr = 2 ^ 32 := by
    rw [index_eq hs, hrd]
    decide
  have hused : used (2 * 2 ^ 32) p.shared = 2 ^ 32 + 1 := by rw [← contents_length, hcont, hlen]
  have hlast : p.shared.data.byte 0 = 1 := by
    have hzero : (p.shared.rdPtr + 2 ^ 32) % (2 * 2 ^ 32) = 0 := hrd.add_right (2 ^ 32)
    have hget : (contents (2 * 2 ^ 32) p.shared)[2 ^ 32]? = some (p.shared.data.byte 0) := by
      rw [contents, window, List.getElem?_eq_getElem (by rw [segment_length]; omega), segment_getElem, hzero]
    rw [hcont, List.getElem?_append_right hzs.le, hzs, Nat.sub_self] at hget
    exact (Option.some.inj hget).symm
  obtain ⟨t, hrun⟩ := cbufRead_wrapped hs h.ok (n := 2 ^ 32 + 1) (by decide) hused.ge
    (by rw [Splits, hindex]; decide) (by rw [atEnd, sizeToEnd, hindex]; decide)
    (by rw [atStart, sizeToEnd, hindex]; decide)
  have hone : (segment p.shared.data.byte 0 (2 ^ 32 + 1))[0]? = some 1 := by
    rw [List.getElem?_eq_getElem (by rw [segment_length]; omega), segment_getElem, hlast]
  generalize segment p.shared.data.byte 0 (2 ^ 32 + 1) = as at hrun hone
  have hrun : (perform (2 * 2 ^ 32) (.read (2 ^ 32 + 1))).run p.shared = some (.bytes .ok as, t) := by
    rw [perform, run_bind, hrun]
    rfl
  have hmay : may False .consumer (p.log .consumer) (.read (2 ^ 32 + 1)) := ⟨trivial, trivial⟩
  obtain ⟨d, hreq, hres, hq⟩ := h.reachable.run h.idle hmay hrun
  have hseen : seenBy (p.log .consumer ++ [d]) = (seenBy (p.log .consumer)).after (.read (2 ^ 32 + 1)) (.bytes .ok as) := by
    rw [seenBy_concat, hreq, hres]
  refine ⟨_, hq, ?_, ?_⟩
  · dsimp only
    rw [Function.update_self, hseen]
    exact hcov
  · dsimp only
    rw [Function.update_self, Function.update_of_ne (by decide), hseen, hwritten]
    intro hpre
    have hpre : as <+: zs ++ [1] := (List.prefix_append_right_inj _).mp hpre
    have hsame := List.prefix_iff_getElem?.mp hpre 0 (List.getElem?_eq_some_iff.mp hone).1
    rw [List.getElem?_append_left (by omega), hfirst, ← List.getElem?_eq_getElem, hone] at hsame
    exact absurd (Option.some.inj hsame) (by decide)

end Glip.CircularBuffer
