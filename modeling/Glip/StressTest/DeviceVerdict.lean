import Glip.StressTest.DeviceProtocol

/-! What the words that a device has taken, refused and sent since it was idle say about the test. -/
namespace Glip.StressTest
open Foundation

section Words
variable {w : Width}

def WordEvent.takenWord : WordEvent w → Option (BitVec w.bits)
  | taken word => some word
  | _ => none

def WordEvent.refusedWord : WordEvent w → Option (BitVec w.bits)
  | refused word => some word
  | _ => none

def WordEvent.sentWord : WordEvent w → Option (BitVec w.bits)
  | sent word => some word
  | _ => none

def takenWords (es : List (WordEvent w)) : List (BitVec w.bits) := es.filterMap WordEvent.takenWord

def refusedWords (es : List (WordEvent w)) : List (BitVec w.bits) := es.filterMap WordEvent.refusedWord

def sentWords (es : List (WordEvent w)) : List (BitVec w.bits) := es.filterMap WordEvent.sentWord

theorem takenWords_append (es es' : List (WordEvent w)) : takenWords (es ++ es') = takenWords es ++ takenWords es' :=
  List.filterMap_append

theorem refusedWords_append (es es' : List (WordEvent w)) :
    refusedWords (es ++ es') = refusedWords es ++ refusedWords es' :=
  List.filterMap_append

theorem sentWords_append (es es' : List (WordEvent w)) : sentWords (es ++ es') = sentWords es ++ sentWords es' :=
  List.filterMap_append

def testWords (seed : BitVec w.bits) (k : Nat) : List (BitVec w.bits) := (List.range k).map (testWord seed)

@[simp] theorem length_testWords (seed : BitVec w.bits) (k : Nat) : (testWords seed k).length = k := by
  simp [testWords]

theorem testWords_succ (seed : BitVec w.bits) (k : Nat) :
    testWords seed (k + 1) = testWords seed k ++ [testWord seed k] := by
  simp [testWords, List.range_succ]

theorem take_testWords (seed : BitVec w.bits) (n k : Nat) : (testWords seed k).take n = testWords seed (min n k) := by
  rw [testWords, ← List.map_take, List.take_range, testWords]

end Words

namespace Phase
variable {w : Width}

inductive Report (expected : BitVec w.bits) : List (BitVec w.bits) → Phase w → Prop where
  | mismatch : Report expected [] (.mismatch expected)
  | error : Report expected [errorWord w] (.reporting expected)
  | errorLost : Report expected [] (.reporting expected)
  | received {S : List (BitVec w.bits)} {word} (h : Report expected S (.reporting expected)) :
      Report expected (S ++ [word]) (.expecting expected)
  | expected {S} (h : Report expected S (.expecting expected)) : Report expected (S ++ [expected]) .failed

inductive Writes (seed : BitVec w.bits) (n : Nat) :
    (T R S : List (BitVec w.bits)) → Phase w → Prop where
  | running {k} (hle : k ≤ n) : Writes seed n (testWords seed k) [] [] (.writing seed n k)
  | ended {S p} (hS : S = [] ∨ S = [successWord w]) (hp : p = .passed ∨ p = .idle) :
      Writes seed n (testWords seed n) [] S p
  | stopped {k v S p} (hlt : k < n) (hne : v ≠ testWord seed k) (h : Report (testWord seed k) S p) :
      Writes seed n (testWords seed k) [v] S p
  /-- Words of later tests. -/
  | later {T R S p} (hlen : n < T.length) (h : T.take n = testWords seed n) : Writes seed n T R S p

inductive Reads (seed : BitVec w.bits) (n : Nat) : (T S : List (BitVec w.bits)) → Phase w → Prop where
  | running {T k} (hle : k ≤ n) (hT : errorWord w ∉ T) : Reads seed n T (testWords seed k) (.reading seed n k)
  | stopped {T k} (hle : k ≤ n) (hT : k < n → errorWord w ∈ T) : Reads seed n T (testWords seed k) .failed
  | ended {T S p} (hlen : n ≤ S.length) (h : S.take n = testWords seed n) : Reads seed n T S p

inductive Session (L : WordCountLshift w) : (T R S : List (BitVec w.bits)) → Phase w → Prop where
  | start : Session L [] [] [] .idle
  | unknown {cmd} (h : requestedTest cmd = none) : Session L [cmd] [] [] .failed
  | seeding {cmd mode} (h : requestedTest cmd = some mode) : Session L [cmd] [] [] (.seeding mode)
  | counting {cmd seed mode} (h : requestedTest cmd = some mode) : Session L [cmd, seed] [] [] (.counting mode seed)
  | writes {cmd seed count T R S p} (h : requestedTest cmd = some .writeTest)
      (hT : Writes seed (L.words count) T R S p) : Session L (cmd :: seed :: count :: T) R S p
  | reads {cmd seed count T R S p} (h : requestedTest cmd = some .readTest)
      (hT : Reads seed (L.words count) T S p) : Session L (cmd :: seed :: count :: T) R S p

variable {L : WordCountLshift w} {seed v : BitVec w.bits} {n : Nat} {p p' : Phase w} {T R S : List (BitVec w.bits)}

theorem Writes.later_append (hlen : n < T.length) (h : T.take n = testWords seed n) (T' : List (BitVec w.bits)) :
    Writes seed n (T ++ T') R S p :=
  .later (by simp; omega) (by rw [List.take_append_of_le_length (Nat.le_of_lt hlen), h])

theorem Writes.quiet (h : Writes seed n T R S p) (hs : Step L p none p') : Writes seed n T R S p' := by
  cases h with
  | running hle =>
    cases hs with
    | successLost => exact .ended (.inl rfl) (.inl rfl)
  | ended hS hp =>
    obtain rfl | rfl := hp
    · cases hs with
      | finish => exact .ended hS (.inr rfl)
    · cases hs
  | stopped hlt hne hreport =>
    refine .stopped hlt hne ?_
    cases hreport with
    | mismatch =>
      cases hs with
      | errorLost => exact .errorLost
    | error => cases hs
    | errorLost => cases hs
    | received => cases hs
    | expected => cases hs
  | later hlen hwords => exact .later hlen hwords

theorem Writes.taken (h : Writes seed n T R S p) (hs : Step L p (some (.taken v)) p') :
    Writes seed n (T ++ [v]) R S p' := by
  cases h with
  | running hle =>
    cases hs with
    | accept hlt =>
      rw [← testWords_succ]
      exact .running hlt
  | ended hS hp =>
    refine .later ?_ ?_
    · simp
    · rw [List.take_append_of_le_length (by simp), take_testWords, Nat.min_self]
  | stopped hlt hne hreport => cases hreport <;> cases hs
  | later hlen hwords => exact Writes.later_append hlen hwords [v]

theorem Writes.refused (h : Writes seed n T R S p) (hs : Step L p (some (.refused v)) p') :
    Writes seed n T (R ++ [v]) S p' := by
  cases h with
  | running hle =>
    cases hs with
    | refuse hlt hne => exact .stopped hlt hne .mismatch
  | ended hS hp => obtain rfl | rfl := hp <;> cases hs
  | stopped hlt hne hreport => cases hreport <;> cases hs
  | later hlen hwords => exact .later hlen hwords

theorem Writes.sent (h : Writes seed n T R S p) (hs : Step L p (some (.sent v)) p') :
    Writes seed n T R (S ++ [v]) p' := by
  cases h with
  | running hle =>
    cases hs with
    | success => exact .ended (.inr rfl) (.inl rfl)
  | ended hS hp => obtain rfl | rfl := hp <;> cases hs
  | stopped hlt hne hreport =>
    refine .stopped hlt hne ?_
    cases hreport with
    | mismatch =>
      cases hs with
      | error => exact .error
    | error =>
      cases hs with
      | received => exact .received .error
    | errorLost =>
      cases hs with
      | received => exact .received .errorLost
    | received h =>
      cases hs with
      | expected => exact .expected (.received h)
    | expected => cases hs
  | later hlen hwords => exact .later hlen hwords

theorem Reads.quiet (h : Reads seed n T S p) (hs : Step L p none p') : Reads seed n T S p' := by
  cases h with
  | running => cases hs
  | stopped => cases hs
  | ended hlen hwords => exact .ended hlen hwords

theorem Reads.taken (h : Reads seed n T S p) (hs : Step L p (some (.taken v)) p') : Reads seed n (T ++ [v]) S p' := by
  cases h with
  | running hle hT =>
    cases hs with
    | ignore hlt hne => exact .running hle (by simp [hT, hne.symm])
    | abort => exact .stopped hle fun _ => by simp
    | confirm => exact .ended (by simp) (by simp [take_testWords])
    | deny => exact .ended (by simp) (by simp [take_testWords])
  | stopped => cases hs
  | ended hlen hwords => exact .ended hlen hwords

theorem Reads.sent (h : Reads seed n T S p) (hs : Step L p (some (.sent v)) p') : Reads seed n T (S ++ [v]) p' := by
  cases h with
  | running hle hT =>
    cases hs with
    | send hlt =>
      rw [← testWords_succ]
      exact .running hlt hT
  | stopped => cases hs
  | ended hlen hwords => exact .ended (by simp; omega) (by rw [List.take_append_of_le_length hlen, hwords])

theorem Reads.refused (h : Reads seed n T S p) (hs : Step L p (some (.refused v)) p') : Reads seed n T S p' := by
  cases h with
  | running => cases hs
  | stopped => cases hs
  | ended hlen hwords => exact .ended hlen hwords

theorem Session.quiet (h : Session L T R S p) (hs : Step L p none p') : Session L T R S p' := by
  cases h with
  | start => cases hs
  | unknown => cases hs
  | seeding => cases hs
  | counting => cases hs
  | writes hcmd hT => exact .writes hcmd (hT.quiet hs)
  | reads hcmd hT => exact .reads hcmd (hT.quiet hs)

theorem Session.taken (h : Session L T R S p) (hs : Step L p (some (.taken v)) p') : Session L (T ++ [v]) R S p' := by
  cases h with
  | start =>
    cases hs with
    | initiate h => exact .seeding h
    | unknown h => exact .unknown h
  | unknown => cases hs
  | seeding h =>
    cases hs with
    | seed => exact .counting h
  | counting h =>
    cases hs with
    | startWrite => exact .writes h (.running (Nat.zero_le _))
    | startRead => exact .reads h (.running (Nat.zero_le _) List.not_mem_nil)
  | writes hcmd hT => exact .writes hcmd (hT.taken hs)
  | reads hcmd hT => exact .reads hcmd (hT.taken hs)

theorem Session.refused (h : Session L T R S p) (hs : Step L p (some (.refused v)) p') :
    Session L T (R ++ [v]) S p' := by
  cases h with
  | start => cases hs
  | unknown => cases hs
  | seeding => cases hs
  | counting => cases hs
  | writes hcmd hT => exact .writes hcmd (hT.refused hs)
  | reads hcmd hT => exact .reads hcmd (hT.refused hs)

theorem Session.sent (h : Session L T R S p) (hs : Step L p (some (.sent v)) p') : Session L T R (S ++ [v]) p' := by
  cases h with
  | start => cases hs
  | unknown => cases hs
  | seeding => cases hs
  | counting => cases hs
  | writes hcmd hT => exact .writes hcmd (hT.sent hs)
  | reads hcmd hT => exact .reads hcmd (hT.sent hs)

theorem session_event {es : List (WordEvent w)} {e : WordEvent w}
    (h : Session L (takenWords es) (refusedWords es) (sentWords es) p) (hs : Step L p (some e) p') :
    Session L (takenWords (es ++ [e])) (refusedWords (es ++ [e])) (sentWords (es ++ [e])) p' := by
  rw [takenWords_append, refusedWords_append, sentWords_append]
  -- the event adds its word to one of the three lists and nothing to the others
  cases e with
  | taken word =>
    have htaken := h.taken hs
    rw [← List.append_nil (refusedWords es), ← List.append_nil (sentWords es)] at htaken
    exact htaken
  | refused word =>
    have hrefused := h.refused hs
    rw [← List.append_nil (takenWords es), ← List.append_nil (sentWords es)] at hrefused
    exact hrefused
  | sent word =>
    have hsent := h.sent hs
    rw [← List.append_nil (takenWords es), ← List.append_nil (refusedWords es)] at hsent
    exact hsent

/-- Whatever the device does after it was idle is a session. -/
theorem session_run {es : List (WordEvent w)} (h : Runs (Step L) .idle es p) :
    Session L (takenWords es) (refusedWords es) (sentWords es) p := by
  let I (es : List (WordEvent w)) (p : Phase w) : Prop :=
    Session L (takenWords es) (refusedWords es) (sentWords es) p
  have hstart : I [] .idle := .start
  refine Runs.history (I := I) ?_ ?_ h hstart
  · intro es s t hsession hs
    exact Session.quiet hsession hs
  · intro es s e t hsession hs
    exact session_event hsession hs

def error : Phase w → Bool
  | mismatch _ | reporting _ | expecting _ | failed => true
  | _ => false

theorem Models.error {s : IoStressTest w} (h : Models s p) : s.error = p.error := by
  cases p with
  | idle => exact h.2.1
  | seeding => exact h.2.2.1
  | counting => exact h.2.2.1
  | writing => exact h.2.1
  | passed => exact h.2.1
  | mismatch => exact h.elim
  | reporting => exact h.2.1
  | expecting => exact h.2.1
  | reading => exact h.2.1
  | failed => exact h.2

theorem Report.fails {x : BitVec w.bits} (h : Report x S p) : p.error = true := by
  cases h <;> rfl

/-- The report is the three words, or lacks the first of them. -/
theorem Report.words {x : BitVec w.bits} (h : Report x S p) :
    ∃ word, S <+: [errorWord w, word, x] ∨ S <+: [word, x] := by
  cases h with
  | mismatch => exact ⟨x, .inr List.nil_prefix⟩
  | error => exact ⟨x, .inl ⟨_, rfl⟩⟩
  | errorLost => exact ⟨x, .inr List.nil_prefix⟩
  | received h =>
    cases h with
    | error => exact ⟨_, .inl ⟨_, rfl⟩⟩
    | errorLost => exact ⟨_, .inr ⟨_, rfl⟩⟩
  | expected h =>
    cases h with
    | received h =>
      cases h with
      | error => exact ⟨_, .inl (List.prefix_refl _)⟩
      | errorLost => exact ⟨_, .inr (List.prefix_refl _)⟩

end Phase

section Verdicts
variable {w : Width} {L : WordCountLshift w} {s : IoStressTest w} {is : List (IoIn w)} {p : Phase w}
  {cmd seed count : BitVec w.bits} {T : List (BitVec w.bits)}

/-- What is known of a write test of `n` words from the words behind its setup that the device has taken and refused,
the words that it has sent and its register `error`. -/
structure WriteVerdict (seed : BitVec w.bits) (n : Nat) (T R S : List (BitVec w.bits)) (error : Bool) : Prop where
  words : T.take n = testWords seed (min n T.length)
  unfinished : T.length < n → error = false → R = [] ∧ S = []
  stopped : T.length < n → error = true →
    ∃ v word, R = [v] ∧ v ≠ testWord seed T.length ∧
      (S <+: [errorWord w, word, testWord seed T.length] ∨ S <+: [word, testWord seed T.length])
  finished : T.length = n → error = false ∧ R = [] ∧ (S = [] ∨ S = [successWord w])

structure ReadVerdict (seed : BitVec w.bits) (n : Nat) (T S : List (BitVec w.bits)) (error : Bool) : Prop where
  words : S.take n = testWords seed (min n S.length)
  unfinished : S.length < n → (error = true ↔ errorWord w ∈ T)

theorem Phase.Writes.verdict {R S : List (BitVec w.bits)} {n : Nat} (h : Writes seed n T R S p) :
    WriteVerdict seed n T R S p.error := by
  cases h with
  | running hle =>
    refine ⟨by simp [take_testWords], ?_, ?_, ?_⟩
    · exact fun _ _ => ⟨rfl, rfl⟩
    · nofun
    · exact fun _ => ⟨rfl, rfl, .inl rfl⟩
  | ended hS hp =>
    have hend : p.error = false := by obtain rfl | rfl := hp <;> rfl
    rw [hend]
    refine ⟨by simp [take_testWords], ?_, ?_, ?_⟩
    · simp
    · nofun
    · exact fun _ => ⟨rfl, rfl, hS⟩
  | stopped hlt hne hreport =>
    rw [hreport.fails]
    refine ⟨by simp [take_testWords], ?_, ?_, ?_⟩
    · nofun
    · intro _ _
      obtain ⟨word, hwords⟩ := hreport.words
      exact ⟨_, word, rfl, by simpa using hne, by simpa using hwords⟩
    · simp; omega
  | later hlen hwords =>
    refine ⟨?_, ?_, ?_, ?_⟩
    · rw [hwords, Nat.min_eq_left (Nat.le_of_lt hlen)]
    all_goals
      intro h
      omega

theorem Phase.Reads.verdict {S : List (BitVec w.bits)} {n : Nat} (h : Reads seed n T S p) :
    ReadVerdict seed n T S p.error := by
  cases h with
  | running hle hT => exact ⟨by simp [take_testWords], fun _ => iff_of_false Bool.false_ne_true hT⟩
  | stopped hle hT => exact ⟨by simp [take_testWords], fun hlt => iff_of_true rfl (hT (by simpa using hlt))⟩
  | ended hlen hwords =>
    refine ⟨by rw [hwords, Nat.min_eq_left hlen], fun hlt => ?_⟩
    omega

/-- The session of a run of the device that was idle. -/
theorem device_session (L : WordCountLshift w) (h : Phase.Models s .idle)
    (his : ∀ i ∈ is, i.rst = false ∧ i.errorFlag = false) :
    ∃ p, Phase.Session L (takenWords ((deviceWords w L.val).emitted s is))
      (refusedWords ((deviceWords w L.val).emitted s is)) (sentWords ((deviceWords w L.val).emitted s is)) p ∧
      ((deviceWords w L.val).after s is).error = p.error := by
  obtain ⟨p, hrun, hp⟩ := Phase.follows_run (L := L) h his
  exact ⟨p, Phase.session_run hrun, hp.error⟩

/-- In a write test the device takes the words of the test one after the other and nothing else, stops at the first word
that differs, and says nothing of success before it has taken them all. -/
theorem write_test_verdict (L : WordCountLshift w) (h : Phase.Models s .idle)
    (his : ∀ i ∈ is, i.rst = false ∧ i.errorFlag = false) (hcmd : requestedTest cmd = some .writeTest)
    (htaken : takenWords ((deviceWords w L.val).emitted s is) = cmd :: seed :: count :: T) :
    WriteVerdict seed (L.words count) T (refusedWords ((deviceWords w L.val).emitted s is))
      (sentWords ((deviceWords w L.val).emitted s is)) ((deviceWords w L.val).after s is).error := by
  obtain ⟨p, hsession, herror⟩ := device_session L h his
  rw [htaken] at hsession
  rw [herror]
  cases hsession with
  | writes _ hT => exact hT.verdict
  | reads hread _ => cases hcmd.symm.trans hread

def resetDevice : IoStressTest .w16 := ⟨.idle, .writeTest, false, false, false, 0, 0, false, 0⟩

def singleWords : WordCountLshift .w16 := ⟨1, by decide, by decide⟩

def differingRun : List (IoIn .w16) :=
  [cycleOf true 0x420A, cycleOf true 1, cycleOf true 2, cycleOf true 2, cycleOf true 7, cycleOf true 7,
    cycleOf true 7]

theorem write_test_verdict_differs :
    takenWords ((deviceWords .w16 1).emitted resetDevice differingRun) = [0x420A, 1, 2, 2] ∧
      WriteVerdict (w := .w16) 1 2 [2] (refusedWords ((deviceWords .w16 1).emitted resetDevice differingRun))
        (sentWords ((deviceWords .w16 1).emitted resetDevice differingRun))
        ((deviceWords .w16 1).after resetDevice differingRun).error := by
  have htaken : takenWords ((deviceWords .w16 1).emitted resetDevice differingRun) = [0x420A, 1, 2, 2] := by
    decide +kernel
  exact ⟨htaken, write_test_verdict singleWords ⟨rfl, rfl, rfl⟩ (by decide) (by decide) htaken⟩

/-- In a read test it sends the words of the test one after the other, and stops at the word `ERROR`. -/
theorem read_test_verdict (L : WordCountLshift w) (h : Phase.Models s .idle)
    (his : ∀ i ∈ is, i.rst = false ∧ i.errorFlag = false) (hcmd : requestedTest cmd = some .readTest)
    (htaken : takenWords ((deviceWords w L.val).emitted s is) = cmd :: seed :: count :: T) :
    ReadVerdict seed (L.words count) T (sentWords ((deviceWords w L.val).emitted s is))
      ((deviceWords w L.val).after s is).error := by
  obtain ⟨p, hsession, herror⟩ := device_session L h his
  rw [htaken] at hsession
  rw [herror]
  cases hsession with
  | writes hwrite _ => cases hcmd.symm.trans hwrite
  | reads _ hT => exact hT.verdict

def abortedRun : List (IoIn .w16) :=
  [cycleOf true 0x420B, cycleOf true 1, cycleOf true 2, cycleOf true 0, cycleOf false 0xDEAD, cycleOf true 0]

theorem read_test_verdict_aborted :
    takenWords ((deviceWords .w16 1).emitted resetDevice abortedRun) = [0x420B, 1, 2, 0, 0xDEAD] ∧
      ReadVerdict (w := .w16) 1 2 [0, 0xDEAD] (sentWords ((deviceWords .w16 1).emitted resetDevice abortedRun))
        ((deviceWords .w16 1).after resetDevice abortedRun).error := by
  have htaken : takenWords ((deviceWords .w16 1).emitted resetDevice abortedRun) = [0x420B, 1, 2, 0, 0xDEAD] := by
    decide +kernel
  exact ⟨htaken, read_test_verdict singleWords ⟨rfl, rfl, rfl⟩ (by decide) (by decide) htaken⟩

end Verdicts
end Glip.StressTest
