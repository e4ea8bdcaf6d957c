import Glip.CircularBuffer.SharedBuffer

/-! What a writer knows of the room in a buffer of any size. On a large buffer the reader's split copies
may go wrong or crash, but its pointer never passes the bytes that are there. -/
namespace Glip.CircularBuffer
open Foundation Prog

section Reader
variable {size : Nat} {s : Cbuf}

/-- Whatever the reader calls, it takes bytes from the front or leaves everything that the writer sees. -/
private theorem reader_safe (hs : IsSize size) (h : Ok size True s) {r : Request} (hr : Side.consumer.Calls r) :
    (perform size r).Safe (ReaderRely size True) (ReaderStep size True) True
      (fun _ s₀ s => ∃ k, ReaderTakes size True k s₀ s) s s := by
  cases r with
  | peek alloc n m =>
    exact (safe_bind _ _ _ _ _).mpr ((peekBytes_safe (V := .shared size True) hs (.inl trivial) (fun _ => trivial)
      (.inl trivial) h).mono fun _ _ _ ho => ⟨_, ho.1.takes⟩)
  | setHintMaxReadSize | fillLevel | read | discard =>
    exact (consumer_safe hs (.inl trivial) h ⟨hr, trivial⟩).mono fun _ _ _ hc => ⟨_, (consumed_takes hc).1⟩
  | _ => exact hr.elim

end Reader
section Writer
variable {size : Nat} {s s' : Cbuf} {ts : List Cbuf} {a : Result}

def WriterView.below (size : Nat) (oom : Prop) (b : Nat) : WriterView size oom where
  rely s t := used size s ≤ b ∧ WriterRely size oom s t
  level v u := u ≤ v ∧ (v ≤ b ∨ b < u)
  within _ _ h := h.2
  refl u := ⟨le_rfl, Nat.lt_or_ge b u |>.symm⟩
  le _ _ h := h.1
  mono v s t h hs hl := by
    have := (h.2.ok hs).2
    omega

/-- How a call of the writer ends that began with at most `b` bytes in the buffer. -/
theorem ends_below {oom : Prop} {α : Type} {p : Prog Cbuf α} {fin : α → Cbuf → Cbuf → Prop} {b : Nat} {a : α}
    (hp : Safe (WriterView.below size oom b).rely (WriterStep size oom) oom fin p s s) (h : Ok size oom s)
    (hb : used size s ≤ b) (ht : Trace (WriterRely size oom) ts p s (.ret a) s') :
    ∃ u, fin a u s' ∧ used size u ≤ b := by
  have hwithin : Safe (WriterRely size oom) (WriterStep size oom) oom
      (fun a s₀ s => fin a s₀ s ∧ (Ok size oom s₀ ∧ used size s₀ ≤ b)) p s s := by
    refine hp.within ?_ ?_ ⟨h, hb⟩
    · intro s t hJ hst
      have hok := hst.ok hJ.1
      exact ⟨⟨hJ.2, hst⟩, hok.1, hok.2.trans hJ.2⟩
    · intro s t hJ hst
      exact ⟨hst.ok hJ.1, hst.used.trans_le hJ.2⟩
  obtain ⟨u, hu, -, hub⟩ := hwithin.of_trace ht
  exact ⟨u, hu, hub⟩

/-- The free level that the writer gets lies between the room at the start of the call and that at its end. -/
theorem trace_freeLevel (hs : IsSize size) (h : Ok size True s)
    (ht : Trace (WriterRely size True) ts (perform size .freeLevel) s (.ret a) s') :
    ∃ free, a = .level free ∧ used size s' + free ≤ size ∧ size ≤ used size s + free := by
  obtain ⟨ts₁, ts₂, free, u, rfl, hload, hend⟩ := trace_bind ht
  obtain ⟨-, rfl, rfl⟩ := trace_pure hend
  obtain ⟨u', ⟨hst, v, hv, hle, rfl⟩, hb⟩ :=
    ends_below (freeLevel_safe (V := .below size True (used size s)) hs h) h le_rfl hload
  have hu := hst.used
  obtain ⟨hv, hb'⟩ := hv
  exact ⟨size - v, rfl, by omega, by omega⟩

/-- A write into room that was there at its start succeeds. -/
theorem trace_write (hs : IsSize size) (h : Ok size True s) {data : List UInt8}
    (hroom : used size s + data.length ≤ size)
    (ht : Trace (WriterRely size True) ts (perform size (.write data)) s (.ret a) s') : a = .code .ok := by
  obtain ⟨ts₁, ts₂, rc, u, rfl, hload, hend⟩ := trace_bind ht
  obtain ⟨-, rfl, rfl⟩ := trace_pure hend
  obtain ⟨u', ho, hb⟩ := ends_below (cbufWrite_safe (V := .below size True (used size s)) hs data h) h le_rfl hload
  cases rc with
  | ok => rfl
  | enomem => exact ho.level.elim
  | einval =>
    obtain ⟨v, ⟨hv, hb'⟩, hlt⟩ := ho.level
    have hlen := congrArg List.length ho.adds.contents
    simp at hlen
    omega

end Writer
/-- The writer asks for the free level and writes, and the reader makes any call of its side. -/
def roomMay : Side → List Entry → Request → Prop
  | .producer, _, r => r = .freeLevel ∨ ∃ data, r = .write data
  | .consumer, _, r => Side.consumer.Calls r

def RoomKnown (size : Nat) (s : Cbuf) (log : List Entry) : Prop :=
  ∀ pre d free, log = pre ++ [d] → d.request = .freeLevel → d.result = .level free → used size s + free ≤ size

/-- The bytes that were in the buffer at the beginning and those written since are taken or still there. -/
structure Roomed (size : Nat) (base : List UInt8) (s : Cbuf) (log : Side → List Entry) : Prop where
  ok : Ok size True s
  queue : ∃ taken, base ++ written (log .producer) = taken ++ contents size s
  room : RoomKnown size s (log .producer)

def RoomEnds (size : Nat) : Side → Request → Result → Cbuf → Cbuf → Prop
  | .producer, r, a, s₀, s => WriterAdds size True (writtenBy r a) s₀ s ∧
      ∀ free, r = .freeLevel → a = .level free → used size s + free ≤ size
  | .consumer, _, _, s₀, s => ∃ k, ReaderTakes size True k s₀ s

section Sides
variable {size : Nat} {base : List UInt8} {s t : Cbuf} {log : Side → List Entry}

private theorem writer_safe (hs : IsSize size) (h : Ok size True s) {r : Request} (hr : roomMay .producer [] r)
    {crash : Prop} : (perform size r).Safe (WriterRely size True) (WriterStep size True) crash
      (RoomEnds size .producer r) s s := by
  obtain rfl | ⟨data, rfl⟩ := hr
  · refine (safe_bind _ _ _ _ _).mpr ((freeLevel_safe (V := .shared size True) hs h).mono ?_)
    rintro free s₀ s ⟨hst, v, hv, hle, rfl⟩
    have hv : used size s ≤ v := hv
    refine ⟨hst.adds, fun free _ hfree => ?_⟩
    cases hfree
    omega
  · refine (safe_bind _ _ _ _ _).mpr ((cbufWrite_safe (V := .shared size True) hs data h).mono fun rc _ _ ho => ?_)
    refine ⟨?_, fun free hreq => by cases hreq⟩
    have hadds := ho.adds
    cases rc <;> exact hadds

private theorem roomed_take {k : Nat} (h : Roomed size base s log) (ht : ReaderTakes size True k s t)
    {log' : Side → List Entry} (hlog : log' .producer = log .producer) : Roomed size base t log' := by
  obtain ⟨taken, hq⟩ := h.queue
  refine ⟨ht.ok h.ok, ⟨taken ++ (contents size s).take k, ?_⟩, ?_⟩
  · rw [hlog, hq, ht.contents, List.append_assoc, List.take_append_drop]
  · intro pre d free hd hreq hres
    have := h.room pre d free (hlog ▸ hd) hreq hres
    have := ht.used
    omega

def roomed (hs : IsSize size) (base : List UInt8) : Contract (perform size) roomMay where
  inv := Roomed size base
  rely := SideRely size True
  stay := SideStep size True
  fin := RoomEnds size
  crash := True
  rely_refl := sideRely_refl
  rely_trans := sideRely_trans
  stay_rely := sideStep_rely
  fin_rely
    | .producer, .consumer => fun _ _ _ _ _ h => h.1.rely
    | .consumer, .producer => fun _ _ _ _ _ ⟨_, h⟩ => h.rely
    | .producer, .producer => fun _ _ _ _ h => (h rfl).elim
    | .consumer, .consumer => fun _ _ _ _ h => (h rfl).elim
  stay_inv
    | .producer => fun s t log h hi => by
        obtain ⟨taken, hq⟩ := hi.queue
        refine ⟨h.ok hi.ok, ⟨taken, h.contents ▸ hq⟩, fun pre d free hd hreq hres => ?_⟩
        rw [h.used]
        exact hi.room pre d free hd hreq hres
    | .consumer => fun s t log h hi => roomed_take hi h.toReaderTakes rfl
  fin_inv
    | .producer => fun s t log d h hi => by
        obtain ⟨taken, hq⟩ := hi.queue
        refine ⟨h.1.ok hi.ok, ⟨taken, ?_⟩, fun pre e free he hreq hres => ?_⟩
        · rw [Function.update_self, written_concat, ← List.append_assoc, hq, h.1.contents, List.append_assoc]
        · rw [Function.update_self] at he
          obtain ⟨-, rfl⟩ := List.append_singleton_inj.mp he
          exact h.2 free hreq hres
    | .consumer => fun s t log d ⟨_, h⟩ hi => roomed_take hi h (Function.update_of_ne (by decide) _ _)
  safe
    | .producer => fun _ _ _ hi hr => writer_safe hs hi.ok hr
    | .consumer => fun _ _ _ hi hr => reader_safe hs hi.ok hr

theorem newCbuf_roomed (hs : IsSize size) : (roomed hs []).inv (newCbuf size) fun _ => [] := by
  refine ⟨newCbuf_ok hs, ⟨[], ?_⟩, fun pre d free h => ?_⟩
  · simp [newCbuf_contents, written]
  · simp at h

/-- The writer's own calls do not crash. -/
theorem roomed_no_fault (hs : IsSize size) {p : Pool Side Request Cbuf Result} (hp : (roomed hs base).Holds p)
    {c : Foundation.Call Request Cbuf Result} (hc : p.calls .producer = some c) : c.rest ≠ .fault := by
  obtain ⟨⟨hmay, logs, -, hinv⟩, -, u, htrace, -, -⟩ := hp.running .producer c hc
  have hinv : Roomed size base c.origin logs := hinv
  have hsafe : (perform size c.request).Safe (WriterRely size True) (WriterStep size True) False
      (RoomEnds size .producer c.request) c.origin c.origin := writer_safe hs hinv.ok hmay
  obtain ⟨v, hv⟩ := hsafe.along htrace
  intro hfault
  rw [hfault] at hv
  exact hv.2

end Sides
section Steps
variable {size : Nat} {hs : IsSize size} {base : List UInt8} {p : Pool Side Request Cbuf Result}
  {c : Foundation.Call Request Cbuf Result} {update : Cbuf → Cbuf} {next : Cbuf → Prog Cbuf Result} {a : Result}

/-- Short of its end a call of the writer moves nothing that the reader could see. -/
theorem roomed_stay (hp : (roomed hs base).Holds p) (hc : p.calls .producer = some c) (hrest : c.rest = .act update next)
    (hret : ∀ a, next p.shared ≠ .ret a) : WriterStep size True p.shared (update p.shared) :=
  (roomed hs base).next_stay hp hc hrest hret

/-- The trace of a call that ends with its next step. -/
private theorem trace_last (hp : (roomed hs base).Holds p) (hc : p.calls .producer = some c)
    (hrest : c.rest = .act update next) (hret : next p.shared = .ret a) :
    Trace (WriterRely size True) (c.seen ++ [p.shared]) (perform size c.request) c.origin (.ret a) (update p.shared) := by
  obtain ⟨-, s₀, s, htrace, -, hrely⟩ := hp.running .producer c hc
  rw [hrest] at htrace
  rw [← hret]
  exact trace_snoc htrace hrely

/-- The writer asks for the free level and is told of all the room, unless the reader has moved meanwhile. -/
theorem roomed_freeLevel (hp : (roomed hs base).Holds p) (hc : p.calls .producer = some c)
    (hreq : c.request = .freeLevel) (hrest : c.rest = .act update next) (hret : next p.shared = .ret a) :
    ∃ free, a = .level free ∧ (update p.shared).rdPtr = p.shared.rdPtr ∧
      used size (update p.shared) = used size p.shared ∧ used size p.shared + free ≤ size ∧
      size ≤ used size c.origin + free := by
  obtain ⟨⟨-, logs, -, hinv⟩, -⟩ := hp.running .producer c hc
  have hinv : Roomed size base c.origin logs := hinv
  have htrace := trace_last hp hc hrest hret
  rw [hreq] at htrace
  obtain ⟨free, rfl, hle, hge⟩ := trace_freeLevel hs hinv.ok htrace
  obtain ⟨hadds, -⟩ : RoomEnds size .producer c.request (.level free) p.shared (update p.shared) :=
    (roomed hs base).next_fin hp hc hrest hret
  rw [hreq] at hadds
  have hused : used size (update p.shared) = used size p.shared := by
    simpa [writtenBy] using congrArg List.length hadds.contents
  exact ⟨free, rfl, hadds.rd, hused, hused ▸ hle, hge⟩

/-- A write into room that was there at its start adds its bytes. -/
theorem roomed_write {data : List UInt8} (hp : (roomed hs base).Holds p) (hc : p.calls .producer = some c)
    (hreq : c.request = .write data) (hroom : used size c.origin + data.length ≤ size)
    (hrest : c.rest = .act update next) (hret : next p.shared = .ret a) :
    a = .code .ok ∧ (update p.shared).rdPtr = p.shared.rdPtr ∧
      used size (update p.shared) = used size p.shared + data.length := by
  obtain ⟨⟨-, logs, -, hinv⟩, -⟩ := hp.running .producer c hc
  have hinv : Roomed size base c.origin logs := hinv
  have htrace := trace_last hp hc hrest hret
  rw [hreq] at htrace
  obtain rfl := trace_write hs hinv.ok hroom htrace
  obtain ⟨hadds, -⟩ : RoomEnds size .producer c.request (.code .ok) p.shared (update p.shared) :=
    (roomed hs base).next_fin hp hc hrest hret
  rw [hreq] at hadds
  exact ⟨rfl, hadds.rd, by simpa [writtenBy] using congrArg List.length hadds.contents⟩

/-- The calls of the writer do not end before their first step. -/
theorem roomMay_long {log : List Entry} {r : Request} (h : roomMay .producer log r) (a : Result) :
    perform size r ≠ .ret a := by
  obtain rfl | ⟨data, rfl⟩ := h
  all_goals
    intro heq
    cases heq

end Steps
end Glip.CircularBuffer
