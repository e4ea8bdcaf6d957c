import Glip.CircularBuffer.BlockingCalls
import Glip.Foundation.WeakFairness

/-! Runs without an end of a blocking function, and when it comes to an end in them. -/
namespace Glip.CircularBuffer
open Foundation

namespace Blocking
variable {κ : Type}

def Advances (code : BlockingCode κ) (s t : Blocking κ) : Prop :=
  t.client ≠ s.client ∨ t.wait ≠ s.wait ∨ t.pool.calls code.side ≠ s.pool.calls code.side

def Ends (code : BlockingCode κ) (s t : Blocking κ) : Prop :=
  t.pool.log code.side ≠ s.pool.log code.side ∨ (s.wait ≠ none ∧ t.wait = none)

def WaitStage.left : Option WaitStage → Nat
  | none => 2
  | some .asleep => 1
  | some (.leaving _) => 0

def left (code : BlockingCode κ) (s : Blocking κ) : Nat × Option (Prog Cbuf Result) :=
  (WaitStage.left s.wait, (s.pool.calls code.side).map Foundation.Call.rest)

section Rule
variable {size : Nat} {code : BlockingCode κ} {may : Side → List Entry → Request → Prop} {deadline : Option Nat}
  {tests : Blocking κ → Prop} {s t : Blocking κ}

/-- Short of an end of a call or a wait there is less left with each step of the function, and no other step
changes anything of it. -/
theorem Step.left (h : Step size code may deadline tests s t) (hends : ¬Ends code s t) :
    t.client = s.client ∧ (Prod.Lex (· < ·) Prog.Rest (t.left code) (s.left code) ∨
      (t.left code = s.left code ∧ ¬Advances code s t)) := by
  have hsettle : ∀ (c : Foundation.Call Request Cbuf Result) (u : Cbuf),
      ¬Ends code s (settle code c { s with pool := { s.pool with shared := u } }) → ∀ a, c.rest ≠ .ret a := by
    intro c u hno a ha
    refine hno (.inl fun heq => ?_)
    rw [settle_of_ret ha, Pool.settle_of_ret ha] at heq
    dsimp only at heq
    rw [Function.update_self] at heq
    simpa using congrArg List.length heq
  cases h with
  | peer q htelling hq =>
    have hcalls := (hq.others code.side.ne_other).1
    exact ⟨rfl, .inr ⟨by simp [Blocking.left, hcalls], by simp [Advances, hcalls]⟩⟩
  | call r hr hnone =>
    have hret := hsettle _ s.pool.shared hends
    rw [settle_of_ne_ret hret, Pool.settle_of_ne_ret hret]
    refine ⟨rfl, .inl ?_⟩
    simp only [Blocking.left, hnone, Function.update_self]
    exact .right _ (.begins _)
  | act c update next hc hrest =>
    have hret := hsettle _ _ hends
    rw [settle_of_ne_ret hret, Pool.settle_of_ne_ret hret]
    refine ⟨rfl, .inl ?_⟩
    simp only [Blocking.left, hc, Function.update_self, Option.map_some, hrest]
    exact .right _ (.acts _ _ _)
  | lockExpires level d hwait hlevel hd hnow hlocked =>
    exact ⟨rfl, .inl (.left _ _ (by simp [WaitStage.left, hwait]))⟩
  | test level hwait hlevel htelling htest =>
    refine ⟨rfl, .inl (.left _ _ ?_)⟩
    rw [hwait]
    dsimp only
    split <;> decide
  | wake hasleep => exact ⟨rfl, .inl (.left _ _ (by simp [WaitStage.left, hasleep]))⟩
  | expires d hasleep hd hnow => exact ⟨rfl, .inl (.left _ _ (by simp [WaitStage.left, hasleep]))⟩
  | leave rv hrv => exact (hends (.inr ⟨by simp [hrv], rfl⟩)).elim
  | unlock | tick | cancel => exact ⟨rfl, .inr ⟨rfl, by simp [Advances]⟩⟩

/-- The steps that end a call or a wait. -/
theorem Step.ends (h : Step size code may deadline tests s t)
    (hlong : ∀ r, code.request s.client = some r → ∀ a, perform size r ≠ .ret a) (hends : Ends code s t) :
    (∃ c update next a, s.pool.calls code.side = some c ∧ c.rest = .act update next ∧ next s.pool.shared = .ret a ∧
      t.pool.shared = update s.pool.shared ∧ t.client = code.after s.client a) ∨
    ∃ rv, s.wait = some (.leaving rv) ∧ t.pool = s.pool ∧
      t.client = code.resume s.client (if s.cancelWaits then .ecanceled else rv) := by
  have hno : ∀ u : Blocking κ, Ends code s u → u.pool.log code.side = s.pool.log code.side →
      ¬(u.wait = s.wait ∨ u.wait ≠ none) := by
    rintro u (hne | ⟨hs, hu⟩) hlog hwait
    · exact hne hlog
    · exact hwait.elim (fun hw => hs (hw ▸ hu)) fun hw => hw hu
  cases h with
  | peer q htelling hq => exact (hno _ hends (hq.others code.side.ne_other).2 (.inl rfl)).elim
  | call r hr hnone =>
    rw [settle_of_ne_ret (hlong r hr), Pool.settle_of_ne_ret (hlong r hr)] at hends
    exact (hno _ hends rfl (.inl rfl)).elim
  | act c update next hc hrest =>
    by_cases hret : ∃ a, next s.pool.shared = .ret a
    · obtain ⟨a, ha⟩ := hret
      rw [settle_of_ret ha, Pool.settle_of_ret ha]
      exact .inl ⟨c, update, next, a, hc, hrest, ha, rfl, rfl⟩
    · have hret := not_exists.mp hret
      rw [settle_of_ne_ret hret, Pool.settle_of_ne_ret hret] at hends
      exact (hno _ hends rfl (.inl rfl)).elim
  | lockExpires | test | wake | expires => exact (hno _ hends rfl (.inr (by simp))).elim
  | leave rv hrv => exact .inr ⟨rv, hrv, rfl, rfl⟩
  | unlock | tick | cancel => exact (hno _ hends rfl (.inl rfl)).elim

/-- The next step of a call under way. -/
theorem act_advances {c : Foundation.Call Request Cbuf Result} {update : Cbuf → Cbuf} {next : Cbuf → Prog Cbuf Result}
    (hc : s.pool.calls code.side = some c) :
    Advances code s (settle code { c with seen := c.seen ++ [s.pool.shared], rest := next s.pool.shared }
      { s with pool := { s.pool with shared := update s.pool.shared } }) := by
  refine .inr (.inr ?_)
  rw [hc]
  by_cases hret : ∃ a, next s.pool.shared = .ret a
  · obtain ⟨a, ha⟩ := hret
    rw [settle_of_ret ha, Pool.settle_of_ret ha]
    simp
  · rw [settle_of_ne_ret (not_exists.mp hret), Pool.settle_of_ne_ret (not_exists.mp hret)]
    dsimp only
    rw [Function.update_self]
    intro heq
    have := congrArg (fun c : Foundation.Call Request Cbuf Result => c.seen.length) (Option.some.inj heq)
    simp at this

/-- The begin of a call that does not end at once. -/
theorem call_advances {r : Request} (hnone : s.pool.calls code.side = none) (hlong : ∀ a, perform size r ≠ .ret a) :
    Advances code s (s.settle code ⟨r, s.pool.shared, [], perform size r⟩) := by
  refine .inr (.inr ?_)
  rw [settle_of_ne_ret hlong, Pool.settle_of_ne_ret hlong, hnone]
  simp

/-- Once the deadline has passed, a function that has a call or a wait to make can go on with it: a wait gets the
mutex, or gives it up. -/
theorem can_advance (hcall : ∀ c, s.pool.calls code.side = some c → ∃ update next, c.rest = .act update next)
    (hlong : ∀ r, code.request s.client = some r → ∀ a, perform size r ≠ .ret a) {d : Nat}
    (hd : deadline = some d) (hnow : d ≤ s.now)
    (hactive : (code.request s.client).isSome ∨ (code.waits s.client).isSome) :
    ∃ t, Step size code may deadline (fun _ => True) s t ∧ Advances code s t := by
  cases hc : s.pool.calls code.side with
  | some c =>
    obtain ⟨update, next, hrest⟩ := hcall c hc
    exact ⟨_, .act s c update next hc hrest, act_advances hc⟩
  | none =>
    rcases hactive with hr | hw
    · obtain ⟨r, hr⟩ := Option.isSome_iff_exists.mp hr
      exact ⟨_, .call s r hr hc, call_advances hc (hlong r hr)⟩
    · obtain ⟨level, hlevel⟩ := Option.isSome_iff_exists.mp hw
      rcases hwait : s.wait with _ | _ | rv
      · cases htelling : s.telling with
        | true => exact ⟨_, .lockExpires s level d hwait hlevel hd hnow (.inl htelling), .inr (.inl (by simp [hwait]))⟩
        | false => exact ⟨_, .test s level hwait hlevel htelling trivial, .inr (.inl (by simp [hwait]))⟩
      · exact ⟨_, .expires s d hwait hd hnow, .inr (.inl (by simp [hwait]))⟩
      · exact ⟨_, .leave s rv hwait, .inr (.inl (by simp [hwait]))⟩

/-- A function that has returned does nothing more. -/
theorem Step.at_end (h : Step size code may deadline tests s t) (hcalls : s.pool.calls code.side = none)
    (hwait : s.wait = none) (hr : code.request s.client = none) (hw : code.waits s.client = none) :
    ¬Advances code s t := by
  cases h with
  | peer q htelling hq => simp [Advances, (hq.others code.side.ne_other).1]
  | unlock | tick | cancel => simp [Advances]
  | _ => simp_all

variable (size code may deadline tests) in
/-- A run without an end; the clock may tick for ever. -/
structure Runs (s : Blocking κ) (f : Nat → Blocking κ) : Prop where
  start : f 0 = s
  step : ∀ i, Step size code may deadline tests (f i) (f (i + 1))

/-- A run with one more step in front. -/
theorem Runs.cons {f : Nat → Blocking κ} (hstep : Step size code may deadline tests s t)
    (h : Runs size code may deadline tests t f) :
    Runs size code may deadline tests s fun i => Nat.casesOn i s f := by
  refine ⟨rfl, fun i => ?_⟩
  cases i with
  | zero =>
    dsimp only
    rwa [h.start]
  | succ i => exact h.step i

theorem run_unfinished (hmay : ∀ x r log, code.request x = some r → may code.side log r) (hs : s.pool.Unfinished)
    (h : Relation.ReflTransGen (Step size code may deadline tests) s t) : t.pool.Unfinished := by
  induction h with
  | refl => exact hs
  | tail _ hstep ih =>
    rcases hstep.pool hmay with heq | hpool
    · rwa [heq]
    · exact hpool.unfinished ih

variable (size code may deadline tests) in
/-- The thread of the function goes on if it can. -/
def Fair (f : Nat → Blocking κ) : Prop :=
  WeaklyFair (fun i => ∃ t, Step size code may deadline tests (f i) t ∧ Advances code (f i) t)
    fun i => Advances code (f i) (f (i + 1))

/-- A goal is reached if the function can go on until then, and each call and each wait that ends lowers a rank
that no other step changes. -/
theorem Runs.reaches {f : Nat → Blocking κ} (h : Runs size code may deadline tests s f)
    (hfair : Fair size code may deadline (fun _ => True) f) {goal : Blocking κ → Prop} (rank : Nat → Nat) (i : Nat)
    (hcan : ∀ j ≥ i, ¬goal (f j) → ∃ t, Step size code may deadline (fun _ => True) (f j) t ∧ Advances code (f j) t)
    (hends : ∀ j ≥ i, ¬goal (f j) → Ends code (f j) (f (j + 1)) → rank (j + 1) < rank j)
    (hsame : ∀ j ≥ i, ¬goal (f j) → ¬Ends code (f j) (f (j + 1)) → rank (j + 1) = rank j) :
    ∃ j ≥ i, goal (f j) := by
  have hwf : WellFounded (Prod.Lex (fun m n : Nat => m < n)
      (Prod.Lex (fun m n : Nat => m < n) (@Prog.Rest Cbuf Result))) :=
    WellFounded.prod_lex wellFounded_lt (WellFounded.prod_lex wellFounded_lt Prog.wellFounded_rest)
  refine hfair.reaches hwf (fun j => (rank j, (f j).left code)) i hcan fun j hj hg => ?_
  by_cases hend : Ends code (f j) (f (j + 1))
  · exact .inl (.left _ _ (hends j hj hg hend))
  · have hr := hsame j hj hg hend
    rcases ((h.step j).left hend).2 with hlow | ⟨hleft, hno⟩
    · rw [hr]
      exact .inl (.right _ hlow)
    · exact .inr ⟨Prod.ext hr hleft, hno⟩

/-- Nothing happens any more. -/
theorem runs_idle (hclock : s.now ≤ s.latest) : Runs size code may deadline tests s fun _ => s := by
  refine ⟨rfl, fun _ => ?_⟩
  have htick : Step size code may deadline tests s { s with now := s.now, latest := max s.latest s.now } :=
    .tick s s.now
  rwa [max_eq_left hclock] at htick

/-- A run with a schedule without a level test in front. -/
theorem play_runs {ms : List Move} (hmay : ∀ r log, .peer (some r) ∈ ms → may code.side.other log r)
    (htests : .test ∉ ms) (h : s.play size code deadline ms = some t) {f : Nat → Blocking κ}
    (hf : Runs size code may deadline tests t f) :
    ∃ g, Runs size code may deadline tests s g ∧
      (∀ i ≤ ms.length, s.play size code deadline (ms.take i) = some (g i)) ∧ ∀ i, g (ms.length + i) = f i := by
  induction ms generalizing s with
  | nil =>
    cases h
    refine ⟨f, hf, fun i hi => ?_, fun i => by rw [List.length_nil, Nat.zero_add]⟩
    obtain rfl := Nat.le_zero.mp hi
    rw [hf.start]
    rfl
  | cons m ms ih =>
    obtain ⟨u, hm, hrest⟩ := Option.bind_eq_some_iff.mp h
    obtain ⟨g, hg, hfirst, hlast⟩ := ih (fun r log hr => hmay r log (List.mem_cons_of_mem _ hr))
      (fun hmem => htests (List.mem_cons_of_mem _ hmem)) hrest
    have hstep : Step size code may deadline tests s u :=
      move_step (fun r log hr => hmay r log (hr ▸ List.mem_cons_self))
        (fun hr => (htests (hr ▸ List.mem_cons_self)).elim) hm
    refine ⟨_, hg.cons hstep, fun i hi => ?_, fun i => ?_⟩
    · cases i with
      | zero => rfl
      | succ i =>
        rw [List.take_succ_cons, play, hm]
        exact hfirst i (Nat.le_of_succ_le_succ hi)
    · rw [List.length_cons, Nat.succ_add]
      exact hlast i

end Rule

end Blocking
end Glip.CircularBuffer
