import Glip.CircularBuffer.LevelWaits
import Glip.CircularBuffer.SharedBuffer

/-! The blocking functions of util.c: a caller that makes one call of the buffer after the other and waits for
a level change in between, while the other side makes its own calls. -/
namespace Glip.CircularBuffer
open Foundation

def Side.other : Side → Side
  | producer => consumer
  | consumer => producer

theorem Side.ne_other (i : Side) : i ≠ i.other := by
  cases i <;> decide

/-- What such a function does next: the call that it makes, or the level that it waits with, and how it goes on
with the result of the one and the return code of the other. -/
structure BlockingCode (κ : Type) where
  side : Side
  request : κ → Option Request
  after : κ → Result → κ
  waits : κ → Option Nat
  resume : κ → WaitRc → κ

inductive WaitStage where
  | asleep
  | leaving (rv : WaitRc)
  deriving DecidableEq

/-- A call of such a function under way; `latest` is the largest time that the clock has shown. The other side
is `telling` from the move of its pointer until it has broadcast and unlocks the mutex. -/
structure Blocking (κ : Type) where
  pool : Pool Side Request Cbuf Result
  telling : Bool
  client : κ
  wait : Option WaitStage
  now : Nat
  latest : Nat
  cancelWaits : Bool

def atMove (s : Cbuf) (c : Foundation.Call Request Cbuf Result) : Bool :=
  match c.rest with
  | .act _ next => match c.request, next s with
    | .write _, .ret (.code .ok) | .read _, .ret (.bytes .ok _) | .discard _, .ret (.code .ok) => true
    | .reserveCommit _ _ _ m, .ret (.code .ok) => m ≠ 0
    | _, _ => false
  | _ => false

namespace Blocking
variable {κ : Type}

def moving (code : BlockingCode κ) (s : Blocking κ) : Bool :=
  (s.pool.calls code.side.other).any (atMove s.pool.shared)

def settle (code : BlockingCode κ) (c : Foundation.Call Request Cbuf Result) (s : Blocking κ) : Blocking κ :=
  { s with
    pool := s.pool.settle code.side c
    client := match c.rest with
      | .ret a => code.after s.client a
      | _ => s.client }

/-- One step of the function, of the other side, of the clock or of a thread that cancels the waits. The level
test is a single step, since it holds the mutex under which the pointers move; `tests` says in which states it
may be made. A wait gives up the mutex only while the other side has it. A sleeper wakes by a broadcast or for
no reason. -/
inductive Step (size : Nat) (code : BlockingCode κ) (may : Side → List Entry → Request → Prop)
    (deadline : Option Nat) (tests : Blocking κ → Prop) : Blocking κ → Blocking κ → Prop where
  | peer (s : Blocking κ) (q : Pool Side Request Cbuf Result) : s.telling = false →
      Pool.StepBy (perform size) may code.side.other s.pool q →
      Step size code may deadline tests s { s with pool := q, telling := s.moving code }
  | unlock (s : Blocking κ) : Step size code may deadline tests s { s with telling := false }
  | call (s : Blocking κ) (r : Request) : code.request s.client = some r → s.pool.calls code.side = none →
      Step size code may deadline tests s (s.settle code ⟨r, s.pool.shared, [], perform size r⟩)
  | act (s : Blocking κ) (c : Foundation.Call Request Cbuf Result) (update : Cbuf → Cbuf)
      (next : Cbuf → Prog Cbuf Result) : s.pool.calls code.side = some c → c.rest = .act update next →
      Step size code may deadline tests s
        (settle code { c with seen := c.seen ++ [s.pool.shared], rest := next s.pool.shared }
          { s with pool := { s.pool with shared := update s.pool.shared } })
  | lockExpires (s : Blocking κ) (level d : Nat) : s.wait = none → code.waits s.client = some level →
      deadline = some d → d ≤ s.now → s.telling ∨ s.moving code →
      Step size code may deadline tests s { s with wait := some (.leaving .etimedout) }
  | test (s : Blocking κ) (level : Nat) : s.wait = none → code.waits s.client = some level → s.telling = false →
      tests s →
      Step size code may deadline tests s
        { s with wait := some (if levelIn size s.pool.shared ≠ level then .leaving .ok else .asleep) }
  | wake (s : Blocking κ) : s.wait = some .asleep →
      Step size code may deadline tests s { s with wait := some (.leaving .ok) }
  | expires (s : Blocking κ) (d : Nat) : s.wait = some .asleep → deadline = some d → d ≤ s.now →
      Step size code may deadline tests s { s with wait := some (.leaving .etimedout) }
  | leave (s : Blocking κ) (rv : WaitRc) : s.wait = some (.leaving rv) →
      Step size code may deadline tests s
        { s with wait := none, client := code.resume s.client (if s.cancelWaits then .ecanceled else rv) }
  | tick (s : Blocking κ) (now : Nat) :
      Step size code may deadline tests s { s with now := now, latest := max s.latest now }
  | cancel (s : Blocking κ) : Step size code may deadline tests s { s with cancelWaits := true }

inductive Move where
  | peer (r : Option Request)
  | unlock
  | own
  | lockExpires
  | test
  | wake
  | expires
  | leave
  | tick (now : Nat)
  | cancel

def Move.owns (n : Nat) : List Move := List.replicate n .own

/-- A call of the other side with its steps, the last of which moves its pointer. -/
def Move.peers (r : Request) (n : Nat) : List Move := .peer (some r) :: List.replicate n (.peer none) ++ [.unlock]

def move (size : Nat) (code : BlockingCode κ) (deadline : Option Nat) (s : Blocking κ) : Move → Option (Blocking κ)
  | .peer r => if s.telling then none else
    (s.pool.move (perform size) (code.side.other, r)).map fun q => { s with pool := q, telling := s.moving code }
  | .unlock => some { s with telling := false }
  | .own => match s.pool.calls code.side with
    | none => (code.request s.client).map fun r => s.settle code ⟨r, s.pool.shared, [], perform size r⟩
    | some c => match c.rest with
      | .act update next => some
          (settle code { c with seen := c.seen ++ [s.pool.shared], rest := next s.pool.shared }
            { s with pool := { s.pool with shared := update s.pool.shared } })
      | _ => none
  | .lockExpires => match s.wait, code.waits s.client, deadline with
    | none, some _, some d => if d ≤ s.now ∧ (s.telling ∨ s.moving code) then
        some { s with wait := some (.leaving .etimedout) } else none
    | _, _, _ => none
  | .test => match s.wait, code.waits s.client, s.telling with
    | none, some level, false =>
      some { s with wait := some (if levelIn size s.pool.shared ≠ level then .leaving .ok else .asleep) }
    | _, _, _ => none
  | .wake => if s.wait = some .asleep then some { s with wait := some (.leaving .ok) } else none
  | .expires => match s.wait, deadline with
    | some .asleep, some d => if d ≤ s.now then some { s with wait := some (.leaving .etimedout) } else none
    | _, _ => none
  | .leave => match s.wait with
    | some (.leaving rv) => some { s with
        wait := none
        client := code.resume s.client (if s.cancelWaits then .ecanceled else rv) }
    | _ => none
  | .tick now => some { s with now := now, latest := max s.latest now }
  | .cancel => some { s with cancelWaits := true }

def play (size : Nat) (code : BlockingCode κ) (deadline : Option Nat) (s : Blocking κ) :
    List Move → Option (Blocking κ)
  | [] => some s
  | m :: ms => (s.move size code deadline m).bind fun t => t.play size code deadline ms

section Rule
variable {size : Nat} {code : BlockingCode κ} {may : Side → List Entry → Request → Prop} {deadline : Option Nat}
  {tests : Blocking κ → Prop} {s t : Blocking κ} {c : Foundation.Call Request Cbuf Result}

theorem settle_of_ret {a : Result} (h : c.rest = .ret a) :
    s.settle code c = { s with pool := s.pool.settle code.side c, client := code.after s.client a } := by
  rw [settle, h]

theorem settle_of_ne_ret (h : ∀ a, c.rest ≠ .ret a) :
    s.settle code c = { s with pool := s.pool.settle code.side c } := by
  unfold settle
  split
  · exact (h _ ‹_›).elim
  · rfl

theorem move_step {m : Move} (hmay : ∀ r log, m = .peer (some r) → may code.side.other log r)
    (htests : m = .test → tests s) (h : s.move size code deadline m = some t) :
    Step size code may deadline tests s t := by
  cases m with
  | peer r =>
    simp only [move] at h
    split at h
    · cases h
    · obtain ⟨q, hq, rfl⟩ := Option.map_eq_some_iff.mp h
      exact .peer s q (Bool.eq_false_of_not_eq_true ‹_›) (Pool.move_stepBy (fun r' hr => hmay r' _ (by rw [hr])) hq)
  | unlock =>
    cases h
    exact .unlock s
  | own =>
    simp only [move] at h
    split at h
    · obtain ⟨r, hr, rfl⟩ := Option.map_eq_some_iff.mp h
      exact .call s r hr ‹_›
    · split at h
      · cases h
        exact .act s _ _ _ ‹_› ‹_›
      · cases h
  | lockExpires =>
    simp only [move] at h
    split at h
    · split at h
      · rename_i hlocked
        cases h
        exact .lockExpires s _ _ ‹_› ‹_› rfl hlocked.1 hlocked.2
      · cases h
    · cases h
  | test =>
    simp only [move] at h
    split at h
    · cases h
      exact .test s _ ‹_› ‹_› ‹_› (htests rfl)
    · cases h
  | wake =>
    simp only [move] at h
    split at h <;> cases h
    exact .wake s ‹_›
  | expires =>
    simp only [move] at h
    split at h
    · split at h <;> cases h
      exact .expires s _ ‹_› rfl ‹_›
    · cases h
  | leave =>
    simp only [move] at h
    split at h <;> cases h
    exact .leave s _ ‹_›
  | tick now =>
    cases h
    exact .tick s now
  | cancel =>
    cases h
    exact .cancel s

/-- A schedule whose calls the other side may make, without restriction on the level tests, is a run. -/
theorem play_run {ms : List Move} (hmay : ∀ r log, .peer (some r) ∈ ms → may code.side.other log r)
    (h : s.play size code deadline ms = some t) :
    Relation.ReflTransGen (Step size code may deadline fun _ => True) s t := by
  induction ms generalizing s with
  | nil =>
    cases h
    exact .refl
  | cons m ms ih =>
    obtain ⟨u, hm, hrest⟩ := Option.bind_eq_some_iff.mp h
    have hstep : Step size code may deadline (fun _ => True) s u :=
      move_step (fun r log hr => hmay r log (hr ▸ List.mem_cons_self)) (fun _ => trivial) hm
    exact .head hstep (ih (fun r log hr => hmay r log (List.mem_cons_of_mem _ hr)) hrest)

/-- The steps of the function and of the other side are steps of the two on the buffer. -/
theorem Step.pool (h : Step size code may deadline tests s t)
    (hmay : ∀ x r log, code.request x = some r → may code.side log r) :
    t.pool = s.pool ∨ Pool.Step (perform size) may s.pool t.pool := by
  cases h with
  | peer q htelling hstep => exact .inr hstep.step
  | call r hr hnone => exact .inr (.begin _ _ _ hnone (hmay _ _ _ hr))
  | act c update next hc hrest => exact .inr (.act _ _ _ _ _ hc hrest)
  | _ => exact .inl rfl

/-- The call under way is the one that the function asked for, and a wait under way is its wait; only a
deadline that has passed ends one as timed out. -/
structure Coherent (code : BlockingCode κ) (deadline : Option Nat) (s : Blocking κ) : Prop where
  running : ∀ c, s.pool.calls code.side = some c → code.request s.client = some c.request
  waiting : s.wait ≠ none → (code.waits s.client).isSome
  expired : s.wait = some (.leaving .etimedout) → ∃ d, deadline = some d ∧ d ≤ s.latest
  clock : s.now ≤ s.latest

theorem coherent_of_idle (hidle : s.pool.calls code.side = none) (hwait : s.wait = none) (hclock : s.now ≤ s.latest) :
    s.Coherent code deadline where
  running c hc := by
    rw [hidle] at hc
    cases hc
  waiting h := (h hwait).elim
  expired h := by
    rw [hwait] at h
    cases h
  clock := hclock

/-- A function in a wait makes no call. -/
theorem Coherent.awake (h : s.Coherent code deadline) (hexcl : ∀ x, (code.waits x).isSome → code.request x = none)
    {r : Request} (hr : code.request s.client = some r) : s.wait = none := by
  by_contra hwait
  have := hexcl _ (h.waiting hwait)
  rw [hr] at this
  cases this

theorem Coherent.step (h : s.Coherent code deadline) (hexcl : ∀ x, (code.waits x).isSome → code.request x = none)
    (hstep : Step size code may deadline tests s t) : t.Coherent code deadline := by
  have hidle : ∀ c x, (Function.update s.pool.calls code.side none) code.side = some c →
      code.request x = some c.request := by
    intro c x hc
    simp at hc
  cases hstep with
  | peer q htelling hq =>
    refine ⟨fun c hc => h.running c ?_, h.waiting, h.expired, h.clock⟩
    rwa [← (hq.others code.side.ne_other).1]
  | call r hr hnone =>
    have hwait := h.awake hexcl hr
    by_cases hret : ∃ a, perform size r = .ret a
    · obtain ⟨a, ha⟩ := hret
      rw [settle_of_ret ha, Pool.settle_of_ret ha]
      exact ⟨fun c hc => hidle c _ hc, fun hw => (hw hwait).elim, h.expired, h.clock⟩
    · rw [settle_of_ne_ret (not_exists.mp hret), Pool.settle_of_ne_ret (not_exists.mp hret)]
      refine ⟨fun c hc => ?_, h.waiting, h.expired, h.clock⟩
      dsimp only at hc
      rw [Function.update_self, Option.some_inj] at hc
      subst hc
      exact hr
  | act c update next hc hrest =>
    have hr := h.running c hc
    have hwait := h.awake hexcl hr
    by_cases hret : ∃ a, next s.pool.shared = .ret a
    · obtain ⟨a, ha⟩ := hret
      rw [settle_of_ret ha, Pool.settle_of_ret ha]
      exact ⟨fun c hc => hidle c _ hc, fun hw => (hw hwait).elim, h.expired, h.clock⟩
    · rw [settle_of_ne_ret (not_exists.mp hret), Pool.settle_of_ne_ret (not_exists.mp hret)]
      refine ⟨fun c' hc' => ?_, h.waiting, h.expired, h.clock⟩
      dsimp only at hc'
      rw [Function.update_self, Option.some_inj] at hc'
      subst hc'
      exact hr
  | lockExpires level d hwait hlevel hd hnow hlocked =>
    exact ⟨h.running, fun _ => by simp [hlevel], fun _ => ⟨d, hd, hnow.trans h.clock⟩, h.clock⟩
  | test level hwait hlevel htelling htest =>
    refine ⟨h.running, fun _ => by simp [hlevel], fun hw => ?_, h.clock⟩
    split at hw <;> cases hw
  | wake hasleep => exact ⟨h.running, fun _ => h.waiting (by simp [hasleep]), fun hw => (by cases hw), h.clock⟩
  | expires d hasleep hd hnow =>
    exact ⟨h.running, fun _ => h.waiting (by simp [hasleep]), fun _ => ⟨d, hd, hnow.trans h.clock⟩, h.clock⟩
  | leave rv hrv =>
    refine ⟨fun c hc => ?_, fun hw => (hw rfl).elim, fun hw => (by cases hw), h.clock⟩
    have := h.awake hexcl (h.running c hc)
    rw [hrv] at this
    cases this
  | tick now =>
    refine ⟨h.running, h.waiting, fun hw => ?_, le_max_right _ _⟩
    obtain ⟨d, hd, hle⟩ := h.expired hw
    exact ⟨d, hd, hle.trans (le_max_left _ _)⟩
  | cancel | unlock => exact ⟨h.running, h.waiting, h.expired, h.clock⟩

/-- A wait that is under way when the waits are cancelled ends as cancelled, and so does the function if it returns
then. -/
theorem cancelled_run {R : κ → Prop} (hexcl : ∀ x, (code.waits x).isSome → code.request x = none)
    (hresume : ∀ x, R (code.resume x .ecanceled)) (hfinal : ∀ x, R x → code.request x = none ∧ code.waits x = none)
    (hc : s.Coherent code deadline) (h : s.cancelWaits ∧ (s.wait ≠ none ∨ R s.client))
    (hrun : Relation.ReflTransGen (Step size code may deadline tests) s t) :
    t.cancelWaits ∧ (t.wait ≠ none ∨ R t.client) := by
  have hquiet : ∀ u : Blocking κ, u.Coherent code deadline → (u.wait ≠ none ∨ R u.client) →
      code.request u.client = none := by
    rintro u hu (hwait | hR)
    · exact hexcl _ (hu.waiting hwait)
    · exact (hfinal _ hR).1
  suffices t.Coherent code deadline ∧ t.cancelWaits ∧ (t.wait ≠ none ∨ R t.client) from this.2
  induction hrun with
  | refl => exact ⟨hc, h⟩
  | tail _ hstep ih =>
    obtain ⟨hu, hcancel, hend⟩ := ih
    refine ⟨hu.step hexcl hstep, ?_⟩
    cases hstep with
    | peer | unlock | tick => exact ⟨hcancel, hend⟩
    | cancel => exact ⟨rfl, hend⟩
    | call r hr hnone =>
      rw [hquiet _ hu hend] at hr
      cases hr
    | act c update next hcall hrest =>
      have hr := hu.running c hcall
      rw [hquiet _ hu hend] at hr
      cases hr
    | lockExpires | test | wake | expires => exact ⟨hcancel, .inl (by simp)⟩
    | leave rv hrv =>
      rw [if_pos hcancel]
      exact ⟨hcancel, .inr (hresume _)⟩

structure Preserved (K : Contract (perform size) may) (code : BlockingCode κ) (deadline : Option Nat)
    (P : κ → List Entry → Nat → Prop) : Prop where
  exclusive : ∀ x, (code.waits x).isSome → code.request x = none
  legal : ∀ x r log, code.request x = some r → may code.side log r
  call : ∀ x log now d, P x log now → code.request x = some d.request → K.Past code.side log d →
    P (code.after x d.result) (log ++ [d]) now
  wait : ∀ x log now rv, P x log now → (code.waits x).isSome →
    (rv = .etimedout → ∃ d, deadline = some d ∧ d ≤ now) → P (code.resume x rv) log now
  later : ∀ x log now now', P x log now → now ≤ now' → P x log now'

variable {K : Contract (perform size) may} {P : κ → List Entry → Nat → Prop}

theorem Preserved.step (hP : Preserved K code deadline P) (hK : K.Holds s.pool) (hc : s.Coherent code deadline)
    (h : P s.client (s.pool.log code.side) s.latest) (hstep : Step size code may deadline tests s t) :
    P t.client (t.pool.log code.side) t.latest := by
  have hK' : K.Holds t.pool := by
    rcases hstep.pool hP.legal with heq | hpool
    · rwa [heq]
    · exact K.step_holds hpool hK
  -- a call that ends is the last one in the log
  have hend : ∀ (c : Foundation.Call Request Cbuf Result) (u : Cbuf) a, c.rest = .ret a →
      code.request s.client = some c.request →
      t = settle code c { s with pool := { s.pool with shared := u } } →
      P t.client (t.pool.log code.side) t.latest := by
    intro c u a ha hr ht
    rw [settle_of_ret ha, Pool.settle_of_ret ha] at ht
    subst ht
    have hlog : Function.update s.pool.log code.side (s.pool.log code.side ++
        [⟨c.request, c.origin, c.seen, a⟩]) code.side =
          s.pool.log code.side ++ [⟨c.request, c.origin, c.seen, a⟩] := Function.update_self _ _ _
    have hpast := hK'.finished code.side _ _ [] hlog
    dsimp only
    rw [hlog]
    exact hP.call _ _ _ ⟨c.request, c.origin, c.seen, a⟩ h hr hpast
  cases hstep with
  | peer q htelling hq =>
    dsimp only
    rwa [(hq.others code.side.ne_other).2]
  | call r hr hnone =>
    by_cases hret : ∃ a, perform size r = .ret a
    · obtain ⟨a, ha⟩ := hret
      exact hend _ s.pool.shared a ha hr rfl
    · rw [settle_of_ne_ret (not_exists.mp hret), Pool.settle_of_ne_ret (not_exists.mp hret)]
      exact h
  | act c update next hc' hrest =>
    have hr := hc.running c hc'
    by_cases hret : ∃ a, next s.pool.shared = .ret a
    · obtain ⟨a, ha⟩ := hret
      exact hend { c with seen := c.seen ++ [s.pool.shared], rest := next s.pool.shared } _ a ha hr rfl
    · rw [settle_of_ne_ret (not_exists.mp hret), Pool.settle_of_ne_ret (not_exists.mp hret)]
      exact h
  | leave rv hrv =>
    refine hP.wait _ _ _ _ h (hc.waiting (by simp [hrv])) fun hexpired => hc.expired ?_
    split at hexpired
    · cases hexpired
    · rw [hrv, hexpired]
  | tick now => exact hP.later _ _ _ _ h (le_max_left _ _)
  | _ => exact h

/-- So it holds in every run. -/
theorem Preserved.run (hP : Preserved K code deadline P) (hK : K.Holds s.pool) (hc : s.Coherent code deadline)
    (h : P s.client (s.pool.log code.side) s.latest)
    (hrun : Relation.ReflTransGen (Step size code may deadline tests) s t) :
    K.Holds t.pool ∧ t.Coherent code deadline ∧ P t.client (t.pool.log code.side) t.latest := by
  induction hrun with
  | refl => exact ⟨hK, hc, h⟩
  | tail _ hstep ih =>
    obtain ⟨hK, hc, h⟩ := ih
    refine ⟨?_, hc.step hP.exclusive hstep, hP.step hK hc h hstep⟩
    rcases hstep.pool hP.legal with heq | hpool
    · rwa [heq]
    · exact K.step_holds hpool hK

end Rule

end Blocking
end Glip.CircularBuffer
