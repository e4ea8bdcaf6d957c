import Glip.CircularBuffer.Requests

/-! A circular buffer whose calls are made one after the other is a bounded queue. -/
namespace Glip.CircularBuffer
open Foundation Prog

namespace Queue

def perform (cap : Nat) (q : List UInt8) : Request → Result × List UInt8
  | .setHintMaxReadSize _ => (.done, q)
  | .setHintMaxWriteSize _ => (.done, q)
  | .isEmpty => (.flag (q.length == 0), q)
  | .isFull => (.flag (q.length == cap), q)
  | .fillLevel => (.level q.length, q)
  | .freeLevel => (.level (cap - q.length), q)
  | .write data => if q.length + data.length ≤ cap then (.code .ok, q ++ data) else (.code .einval, q)
  | .reserveCommit _ n data m =>
    if q.length + n ≤ cap then (.code .ok, q ++ data.take m) else (.code .einval, q)
  | .read n => if n ≤ q.length then (.bytes .ok (q.take n), q.drop n) else (.bytes .einval [], q)
  | .peek _ n m => if n ≤ q.length then (.bytes .ok (q.take m), q) else (.bytes .einval [], q)
  | .discard n => if n ≤ q.length then (.code .ok, q.drop n) else (.code .einval, q)

def performAll (cap : Nat) (q : List UInt8) : List Request → List Result × List UInt8
  | [] => ([], q)
  | r :: rs =>
    let step := perform cap q r
    let rest := performAll cap step.2 rs
    (step.1 :: rest.1, rest.2)

end Queue

def performAll (size : Nat) (s : Cbuf) : List Request → Option (List Result × Cbuf)
  | [] => some ([], s)
  | r :: rs => do
    let step ← (perform size r).run s
    let rest ← performAll size step.2 rs
    pure (step.1 :: rest.1, rest.2)

section
variable {size : Nat} {oom : Prop} {s : Cbuf}

def Refines (size : Nat) (s : Cbuf) (r : Request) : Prop :=
  ∃ t, (perform size r).run s = some ((Queue.perform size (contents size s) r).1, t) ∧
    Ok size False t ∧ contents size t = (Queue.perform size (contents size s) r).2

private theorem write_alone {p : Prog Cbuf Rc} {nomem : Prop} {n : Nat} {bs : List UInt8}
    (hnomem : ¬nomem) (h : Ok size False s)
    (hp : Safe (WriterView.alone size False).rely (WriterStep size False) False
      (WriteOutcome (WriterView.alone size False) nomem n bs) p s s) :
    ∃ rc t, p.run s = some (rc, t) ∧ Ok size False t ∧
      rc = (if used size s + n ≤ size then .ok else .einval) ∧
      contents size t = if used size s + n ≤ size then contents size s ++ bs else contents size s := by
  obtain ⟨rc, u, t, hrun, hstay, hadds, hlevel⟩ :=
    hp.run (fun _ => rfl) id (fun _ _ _ => WriterStep.trans) (WriterStep.refl s)
  refine ⟨rc, t, hrun, hadds.ok (hstay.ok h), ?_⟩
  rw [hadds.contents, hstay.contents]
  cases rc with
  | ok =>
    obtain ⟨v, rfl, hle⟩ := hlevel
    rw [hstay.used] at hle
    simp [hle]
  | einval =>
    obtain ⟨v, rfl, hlt⟩ := hlevel
    have hu : used size t = used size s := by
      simpa [hstay.contents] using congrArg List.length hadds.contents
    rw [hu] at hlt
    simp [Nat.not_le.mpr hlt]
  | enomem => exact (hnomem hlevel).elim

private theorem read_alone {α : Type} {p : Prog Cbuf α} {nomem : Prop} {n k : Nat} (rc : α → Rc)
    (seen : α → Nat → List UInt8 → Prop) (hnomem : ¬nomem) (h : Ok size False s)
    (hp : Safe (ReaderView.alone size False).rely (ReaderStep size False) False
      (fun a s₀ s => ReadOutcome (ReaderView.alone size False) nomem n k (rc a) s₀ s ∧
        seen a s₀.rdPtr (contents size s₀)) p s s) :
    ∃ a t, p.run s = some (a, t) ∧ Ok size False t ∧ seen a s.rdPtr (contents size s) ∧
      rc a = (if n ≤ used size s then .ok else .einval) ∧
      contents size t = if n ≤ used size s then (contents size s).drop k else contents size s := by
  obtain ⟨a, u, t, hrun, hstay, ⟨htakes, hlevel⟩, hseen⟩ :=
    hp.run (fun _ => rfl) id (fun _ _ _ => ReaderStep.trans) (ReaderStep.refl s)
  have hcont : contents size u = contents size s := by simpa using hstay.contents
  have hused : used size u = used size s := by simpa using congrArg List.length hcont
  refine ⟨a, t, hrun, htakes.ok (hstay.ok h), hstay.rd ▸ hcont ▸ hseen, ?_⟩
  rw [htakes.contents, hcont]
  cases hrc : rc a with
  | ok =>
    rw [hrc] at hlevel
    obtain ⟨v, rfl, hle⟩ := hlevel
    rw [hused] at hle
    simp [hle]
  | einval =>
    rw [hrc] at hlevel htakes
    obtain ⟨v, rfl, hlt⟩ := hlevel
    have hu : used size t = used size s := by simpa [hused] using htakes.used
    rw [hu] at hlt
    simp [Nat.not_le.mpr hlt]
  | enomem =>
    rw [hrc] at hlevel
    exact (hnomem hlevel).elim

theorem cbufWrite_run (hs : IsSize size) (h : Ok size False s) (data : List UInt8) :
    ∃ t, (cbufWrite size data).run s = some (if used size s + data.length ≤ size then .ok else .einval, t) ∧
      Ok size False t ∧
      contents size t = if used size s + data.length ≤ size then contents size s ++ data else contents size s := by
  obtain ⟨rc, t, hrun, hok, rfl, hcont⟩ := write_alone id h (cbufWrite_safe hs data h)
  exact ⟨t, hrun, hok, hcont⟩

private theorem refines_write (hs : IsSize size) (h : Ok size False s) (data : List UInt8) :
    Refines size s (.write data) := by
  obtain ⟨t, hrun, hok, hcont⟩ := cbufWrite_run hs h data
  refine ⟨t, ?_, hok, hcont.trans ?_⟩ <;>
    simp only [perform, run_bind, hrun, Option.bind_some, run_pure, Queue.perform, contents_length] <;>
    split <;> rfl

private theorem refines_reserveCommit (hs : IsSize size) (hsmall : size ≤ 2 ^ 29) (h : Ok size False s)
    {alloc : Alloc} {n m : Nat} {data : List UInt8} (hr : (Request.reserveCommit alloc n data m).Proper False) :
    Refines size s (.reserveCommit alloc n data m) := by
  obtain ⟨halloc, hdata, hm⟩ := hr
  obtain ⟨rc, t, hrun, hok, rfl, hcont⟩ :=
    write_alone halloc h (reserveCommit_safe hs (.inr hsmall) halloc hdata hm h)
  refine ⟨t, ?_, hok, hcont.trans ?_⟩ <;>
    simp only [perform, run_bind, hrun, Option.bind_some, run_pure, Queue.perform, contents_length] <;>
    split <;> rfl

theorem cbufRead_run (hs : IsSize size) {n : Nat} (hnear : n ≤ size → Near size s.rdPtr n) (h : Ok size False s) :
    ∃ t, (cbufRead size n).run s =
        some (if n ≤ used size s then (.ok, (contents size s).take n) else (.einval, []), t) ∧ Ok size False t ∧
      contents size t = if n ≤ used size s then (contents size s).drop n else contents size s := by
  obtain ⟨⟨rc, bs⟩, t, hrun, hok, hbs, hrc, hcont⟩ :=
    read_alone Prod.fst (fun r rd q => (r.1 = .ok → Near size rd n) → r.2 = yielded r.1 (q.take n)) id h
      (cbufRead_safe hs n (.inr hnear) h)
  dsimp only at hbs hrc
  subst hrc
  obtain rfl := hbs fun hok => hnear <| by
    split at hok
    · exact ‹n ≤ _›.trans h.fill
    · cases hok
  refine ⟨t, hrun.trans ?_, hok, hcont⟩
  split <;> rfl

private theorem refines_read (hs : IsSize size) (hsmall : size ≤ 2 ^ 29) (h : Ok size False s) (n : Nat) :
    Refines size s (.read n) := by
  obtain ⟨t, hrun, hok, hcont⟩ := cbufRead_run hs (n := n) (fun _ => .inr (by omega)) h
  refine ⟨t, ?_, hok, hcont.trans ?_⟩ <;>
    simp only [perform, run_bind, hrun, Option.bind_some, run_pure, Queue.perform, contents_length] <;>
    split <;> rfl

private theorem refines_peek (hs : IsSize size) (hsmall : size ≤ 2 ^ 29) (h : Ok size False s)
    {alloc : Alloc} {n m : Nat} (hr : (Request.peek alloc n m).Proper False) :
    Refines size s (.peek alloc n m) := by
  obtain ⟨halloc, hm⟩ := hr
  have hnear : ∀ rd, Near size rd n := fun rd => .inr (by omega)
  obtain ⟨⟨rc, bs⟩, t, hrun, hok, hbs, hrc, hcont⟩ :=
    read_alone Prod.fst (fun r _ q => r.2 = yielded r.1 (q.take m)) halloc h
      ((peekBytes_safe hs (.inr hsmall) halloc (.inr ⟨hm, fun _ => hnear _⟩) h).mono
        fun _ _ _ ⟨ho, hbs⟩ => ⟨ho, hbs fun _ => ⟨hm, hnear _⟩⟩)
  dsimp only at hbs hrc
  subst hrc
  subst hbs
  rw [List.drop_zero, ite_self] at hcont
  refine ⟨t, ?_, hok, hcont.trans ?_⟩ <;>
    simp only [perform, run_bind, hrun, Option.bind_some, run_pure, Queue.perform, contents_length] <;>
    split <;> rfl

private theorem refines_discard (hs : IsSize size) (h : Ok size False s) (n : Nat) :
    Refines size s (.discard n) := by
  obtain ⟨rc, t, hrun, hok, -, rfl, hcont⟩ := read_alone id (fun _ _ _ => True) id h
    ((cbufDiscard_safe hs n h).mono fun _ _ _ hr => ⟨hr, trivial⟩)
  refine ⟨t, ?_, hok, hcont.trans ?_⟩ <;>
    simp only [perform, run_bind, hrun, Option.bind_some, run_pure, Queue.perform, contents_length] <;>
    split <;> rfl

private theorem refines_fillLevel (hs : IsSize size) (h : Ok size False s) : Refines size s .fillLevel := by
  refine ⟨s, ?_, h, rfl⟩
  simp only [perform, run_bind, fillLevel_run, levelIn_eq_used hs h, Option.bind_some, run_pure, Queue.perform,
    contents_length]

theorem freeLevel_run_eq (hs : IsSize size) (h : Ok size oom s) :
    (freeLevel size).run s = some (size - used size s, s) := by
  have hl := hs.le
  rw [freeLevel_run, levelIn_eq_used hs h, sizeSub_eq h.fill (by omega)]

private theorem refines_freeLevel (hs : IsSize size) (h : Ok size False s) : Refines size s .freeLevel := by
  refine ⟨s, ?_, h, rfl⟩
  simp only [perform, run_bind, freeLevel_run_eq hs h, Option.bind_some, run_pure, Queue.perform, contents_length]

private theorem refines_flags (hs : IsSize size) (h : Ok size False s) :
    Refines size s .isEmpty ∧ Refines size s .isFull := by
  have hempty : used size s = 0 ↔ s.wrPtr = s.rdPtr := distance_eq_zero h.rd
  have hfull := full_iff hs h.wr h.rd
  refine ⟨⟨s, ?_, h, rfl⟩, ⟨s, ?_, h, rfl⟩⟩
  · simp only [perform, isEmpty, loadWr, loadRd, run_bind, run_atomic, Option.bind_some, run_pure,
      Queue.perform, contents_length]
    rw [beq_eq_beq.mpr hempty.symm]
  · simp only [perform, isFull, loadWr, loadRd, run_bind, run_atomic, Option.bind_some, run_pure,
      Queue.perform, contents_length]
    rw [beq_eq_beq.mpr hfull]
    rfl

private theorem refines_hints (h : Ok size False s) (hint : Nat) :
    Refines size s (.setHintMaxReadSize hint) ∧ Refines size s (.setHintMaxWriteSize hint) :=
  ⟨⟨_, rfl, ⟨h.wr, h.rd, h.fill, h.len, h.writeTmp, h.readTmp⟩, rfl⟩,
    ⟨_, rfl, ⟨h.wr, h.rd, h.fill, h.len, h.writeTmp, h.readTmp⟩, rfl⟩⟩

/-- Every call does what it does on the queue of the unread bytes. -/
theorem perform_refines (hs : IsSize size) (hsmall : size ≤ 2 ^ 29) (h : Ok size False s) {r : Request}
    (hr : r.Proper False) : Refines size s r := by
  cases r with
  | setHintMaxReadSize hint => exact (refines_hints h hint).1
  | setHintMaxWriteSize hint => exact (refines_hints h hint).2
  | isEmpty => exact (refines_flags hs h).1
  | isFull => exact (refines_flags hs h).2
  | fillLevel => exact refines_fillLevel hs h
  | freeLevel => exact refines_freeLevel hs h
  | write data => exact refines_write hs h data
  | reserveCommit alloc n data m => exact refines_reserveCommit hs hsmall h hr
  | read n => exact refines_read hs hsmall h n
  | peek alloc n m => exact refines_peek hs hsmall h hr
  | discard n => exact refines_discard hs h n

theorem performAll_refines (hs : IsSize size) (hsmall : size ≤ 2 ^ 29) (h : Ok size False s)
    (rs : List Request) (hrs : ∀ r ∈ rs, r.Proper False) :
    ∃ t, performAll size s rs = some ((Queue.performAll size (contents size s) rs).1, t) ∧
      Ok size False t ∧ contents size t = (Queue.performAll size (contents size s) rs).2 := by
  induction rs generalizing s with
  | nil => exact ⟨s, rfl, h, rfl⟩
  | cons r rs ih =>
    obtain ⟨t, hrun, hok, hcont⟩ := perform_refines hs hsmall h (hrs r List.mem_cons_self)
    obtain ⟨u, hrest, hok', hcont'⟩ := ih hok fun r hr => hrs r (List.mem_cons_of_mem _ hr)
    refine ⟨u, ?_, hok', ?_⟩
    · rw [hcont] at hrest
      simp [performAll, hrun, hrest, Queue.performAll]
    · rw [hcont', hcont]
      rfl

/-- From `cbuf_init` on, any sequence of calls returns what the bounded queue
returns, the levels and flags among them, and keeps the bytes of the queue. -/
theorem cbuf_refines_queue (k : Nat) (hk : k ≤ 29) (rs : List Request) (hrs : ∀ r ∈ rs, r.Proper False) :
    ∃ b s, cbufInit (2 ^ k) = some b ∧
      performAll (2 ^ k) b rs = some ((Queue.performAll (2 ^ k) [] rs).1, s) ∧
      contents (2 ^ k) s = (Queue.performAll (2 ^ k) [] rs).2 := by
  have hs : IsSize (2 ^ k) := ⟨k, by omega, rfl⟩
  have hsmall : 2 ^ k ≤ 2 ^ 29 := Nat.pow_le_pow_right (by norm_num) hk
  obtain ⟨s, hrun, -, hcont⟩ := performAll_refines hs hsmall (newCbuf_ok hs) rs hrs
  rw [newCbuf_contents] at hrun hcont
  exact ⟨newCbuf (2 ^ k), s, cbufInit_eq hs, hrun, hcont⟩

/-- Calls on a buffer of four bytes in which a reservation and a look run past
the end of the array. -/
theorem cbuf_refines_queue_wrapped :
    ∃ b s, cbufInit 4 = some b ∧
      performAll 4 b [.write [1, 2, 3], .read 2, .reserveCommit (some fun _ => 0) 3 [4, 5, 6] 2,
        .peek (some fun _ => 0) 3 3, .discard 1, .fillLevel, .write [7, 8, 9]] =
        some ([.code .ok, .bytes .ok [1, 2], .code .ok, .bytes .ok [3, 4, 5], .code .ok, .level 2,
          .code .einval], s) ∧
      contents 4 s = [4, 5] :=
  cbuf_refines_queue 2 (by decide) _ (by simp [Request.Proper])

end
end Glip.CircularBuffer
