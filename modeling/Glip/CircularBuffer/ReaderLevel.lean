import Glip.CircularBuffer.FillLevelRace

/-! What a reader knows of the bytes in a buffer of any size. On a large buffer the writer's calls with a temporary
buffer may crash, but they never commit other bytes than they were given. -/
namespace Glip.CircularBuffer
open Foundation Prog

/-- What `cbuf_fill_level` makes of the states that its loads see: the buffer is full at the first of them, or the
pointers are subtracted at the third. -/
def seenLevel (size : Nat) : List Cbuf → Nat
  | [_, _] => size
  | _ :: _ :: t₃ :: _ => levelOf size t₃.wrPtr t₃.rdPtr
  | _ => 0

def readOf : Request → Result → List UInt8
  | .read _, .bytes .ok bs => bs
  | _, _ => []

def readBy (log : List Entry) : List UInt8 := log.flatMap fun d => readOf d.request d.result

theorem readBy_concat (log : List Entry) (d : Entry) : readBy (log ++ [d]) = readBy log ++ readOf d.request d.result := by
  simp [readBy]

section
variable {size v m : Nat} {s s' : Cbuf} {ts : List Cbuf} {a : Result}

theorem trace_seenLevel (hs : IsSize size) (h : Ok size True s)
    (htr : Trace (ReaderRely size True) ts (fillLevel size) s (.ret v) s') : v = seenLevel size ts := by
  obtain ⟨ts₁, ts₂, full, t₂, rfl, hfull, hrest⟩ := trace_bind htr
  obtain ⟨t₁, rfl, -, -, -⟩ := trace_isFull hs h hfull
  by_cases hf : full
  · rw [if_pos hf] at hrest
    obtain ⟨rfl, rfl, rfl⟩ := trace_pure hrest
    rfl
  · rw [if_neg hf] at hrest
    obtain ⟨ts₁, ts₂, wr, t₃, rfl, hwr, hsub⟩ := trace_bind hrest
    obtain ⟨rfl, -, rfl⟩ := trace_load hwr
    obtain ⟨ts₁, ts₂, rd, t₄, rfl, hrd, hend⟩ := trace_bind hsub
    obtain ⟨rfl, hr₄, rfl⟩ := trace_load hrd
    obtain ⟨rfl, rfl, rfl⟩ := trace_pure hend
    rw [hr₄.rd]
    rfl

theorem trace_level_result (hs : IsSize size) (h : Ok size True s)
    (htr : Trace (ReaderRely size True) ts (perform size .fillLevel) s (.ret a) s') : a = .level (seenLevel size ts) := by
  obtain ⟨ts₁, ts₂, v, u, rfl, hload, hend⟩ := trace_bind htr
  obtain ⟨rfl, rfl, -⟩ := trace_pure hend
  rw [List.append_nil, trace_seenLevel hs h hload]

/-- A read takes all the bytes that it is asked for or none. -/
theorem trace_read (hs : IsSize size) (h : Ok size True s) (hm : m ≤ size → m < 2 ^ 31)
    (htr : Trace (ReaderRely size True) ts (perform size (.read m)) s (.ret a) s') :
    (∃ bs, a = .bytes .ok bs ∧ bs.length = m ∧ m ≤ size) ∨ a = .bytes .einval [] := by
  obtain ⟨ts₁, ts₂, ⟨rc, bs⟩, u, rfl, hread, hend⟩ := trace_bind htr
  obtain ⟨-, rfl, -⟩ := trace_pure hend
  obtain ⟨t, ⟨ho, hbs⟩, hok⟩ := ((cbufRead_bytes (V := .shared size True) hs m hm h).within
    (fun s t hok hst => ⟨hst, hst.ok hok⟩) (fun s t hok hst => hst.ok hok) h).of_trace hread
  dsimp only at hbs
  subst hbs
  cases rc with
  | ok =>
    obtain ⟨v, hv, hle⟩ := ho.level
    have hfill : m ≤ used size t := hle.trans hv
    refine .inl ⟨_, rfl, ?_, hfill.trans hok.fill⟩
    rw [yielded, if_pos rfl, List.length_take, contents_length]
    exact Nat.min_eq_left hfill
  | einval => exact .inr rfl
  | enomem => exact ho.level.elim

end
def drainMay (size : Nat) : Side → List Entry → Request → Prop
  | .producer, log, r => may True .producer log r
  | .consumer, _, r => r = .fillLevel ∨ ∃ n, r = .read n ∧ (n ≤ size → n < 2 ^ 31)

def LevelKnown (size : Nat) (s : Cbuf) (log : List Entry) : Prop :=
  ∀ pre d v, log = pre ++ [d] → d.request = .fillLevel → d.result = .level v → v ≤ used size s

/-- The bytes written are those that the reader has got and those in the buffer. -/
structure Drained (size : Nat) (s : Cbuf) (log : Side → List Entry) : Prop where
  ok : Ok size True s
  queue : written (log .producer) = readBy (log .consumer) ++ contents size s
  level : LevelKnown size s (log .consumer)

def DrainEnds (size : Nat) : Side → Request → Result → Cbuf → Cbuf → Prop
  | .producer, r, a, s₀, s => SideEnds size True .producer r a s₀ s
  | .consumer, r, a, s₀, s =>
    (∃ m, ReaderTakes size True m s₀ s ∧ readOf r a = (contents size s₀).take m) ∧
      ∀ v, r = .fillLevel → a = .level v → v ≤ used size s

section
variable {size : Nat} {s t : Cbuf} {log : Side → List Entry}

private theorem drain_safe (hs : IsSize size) (h : Ok size True s) {r : Request} (hr : drainMay size .consumer [] r) :
    (perform size r).Safe (ReaderRely size True) (ReaderStep size True) True (DrainEnds size .consumer r) s s := by
  obtain rfl | ⟨n, rfl, hn⟩ := hr
  · refine (safe_bind _ _ _ _ _).mpr ((fillLevel_safe (V := .shared size True) hs h).mono ?_)
    rintro v s₀ s ⟨hst, hv⟩
    refine ⟨⟨0, hst.toReaderTakes, rfl⟩, fun v' _ hv' => ?_⟩
    cases hv'
    exact hv
  · refine (safe_bind _ _ _ _ _).mpr ((cbufRead_bytes (V := .shared size True) hs n hn h).mono ?_)
    rintro ⟨rc, bs⟩ s₀ s ⟨ho, hbs⟩
    dsimp only at hbs ho
    subst hbs
    have htakes := ho.takes
    cases rc with
    | ok => exact ⟨⟨n, htakes, rfl⟩, nofun⟩
    | einval => exact ⟨⟨0, htakes, rfl⟩, nofun⟩
    | enomem => exact ho.level.elim

private theorem LevelKnown.mono (h : LevelKnown size s (log .consumer)) (hle : used size s ≤ used size t) :
    LevelKnown size t (log .consumer) :=
  fun pre d v hd hreq hres => (h pre d v hd hreq hres).trans hle

def drained (hs : IsSize size) : Contract (perform size) (drainMay size) where
  inv := Drained size
  rely := SideRely size True
  stay := SideStep size True
  fin := DrainEnds size
  crash := True
  rely_refl := sideRely_refl
  rely_trans := sideRely_trans
  stay_rely := sideStep_rely
  fin_rely
    | .producer, .consumer => fun _ _ _ _ _ h => h.rely
    | .consumer, .producer => fun _ _ _ _ _ ⟨⟨_, h, _⟩, _⟩ => h.rely
    | .producer, .producer => fun _ _ _ _ h => (h rfl).elim
    | .consumer, .consumer => fun _ _ _ _ h => (h rfl).elim
  stay_inv
    | .producer => fun s t log h hi => ⟨h.ok hi.ok, h.contents ▸ hi.queue, hi.level.mono h.used.ge⟩
    | .consumer => fun s t log h hi => ⟨h.ok hi.ok, h.contents ▸ hi.queue, hi.level.mono h.used.ge⟩
  fin_inv
    | .producer => fun s t log d h hi => by
        have h : WriterAdds size True (writtenBy d.request d.result) s t := h
        refine ⟨h.ok hi.ok, ?_, ?_⟩
        · rw [Function.update_self, Function.update_of_ne (by decide), written_concat, hi.queue, h.contents,
            List.append_assoc]
        · rw [Function.update_of_ne (by decide)]
          refine hi.level.mono ?_
          have hlen := congrArg List.length h.contents
          simp only [contents_length, List.length_append] at hlen
          omega
    | .consumer => fun s t log d ⟨⟨m, h, hread⟩, hlevel⟩ hi => by
        refine ⟨h.ok hi.ok, ?_, fun pre e v he hreq hres => ?_⟩
        · rw [Function.update_self, Function.update_of_ne (by decide), readBy_concat, hread, h.contents,
            List.append_assoc, List.take_append_drop]
          exact hi.queue
        · rw [Function.update_self] at he
          obtain ⟨-, rfl⟩ := List.append_singleton_inj.mp he
          exact hlevel v hreq hres
  safe
    | .producer => fun _ _ _ hi hr => producer_safe hs (.inl trivial) hi.ok hr
    | .consumer => fun _ _ _ hi hr => drain_safe hs hi.ok hr

theorem newCbuf_drained (hs : IsSize size) : (drained hs).inv (newCbuf size) fun _ => [] := by
  refine ⟨newCbuf_ok hs, ?_, fun pre d v h => ?_⟩
  · simp [newCbuf_contents, written, readBy]
  · simp at h

end
end Glip.CircularBuffer
