import Glip.StressTest.DeviceVerdict
import Glip.StressTest.ReadCompare
import Glip.StressTest.WriteLoop

/-! The random words that `write_stress_test` of io_stress_test.c keeps in its block, and the bytes of them that are
accepted, and what a device says about these words. -/
namespace Glip.StressTest
open Foundation

structure WriteBlock (w : Width) where
  writeData : List (BitVec w.bits)
  lfsr : BitVec w.bits

namespace WriteBlock
variable {w : Width}

def generate : Nat → Nat → WriteBlock w → WriteBlock w
  | 0, _, b => b
  | m + 1, i, b => generate m (i + 1) ⟨b.writeData.set i (w.bswap (w.lfsrInc b.lfsr)), w.lfsrInc b.lfsr⟩

def filled (w : Width) (writeBlockSize : Nat) (seed : BitVec w.bits) : WriteBlock w :=
  generate (writeBlockSize / w.bytes) 0 ⟨List.replicate (writeBlockSize / w.bytes) 0, seed⟩

/-- The byte of `write_data` at an offset: the low byte of a word comes first, and the rest of the block is zero. -/
def byteAt (b : WriteBlock w) (j : Nat) : BitVec 8 :=
  (b.writeData.getD (j / w.bytes) 0).extractLsb' (8 * (j % w.bytes)) 8

def renewed (b : WriteBlock w) (subIdx sizeWritten : Nat) : WriteBlock w :=
  b.generate ((subIdx + sizeWritten) / w.bytes - subIdx / w.bytes) (subIdx / w.bytes)

end WriteBlock

def acceptedBytes {w : Width} (writeBlockSize transferSize : Nat) :
    Nat → WriteBlock w → List (Option Nat) → List (BitVec 8)
  | _, _, [] => []
  | current, b, answer :: answers =>
    if current < transferSize then
      match answer with
      | none => []
      | some sizeWritten =>
        let subIdx := current % writeBlockSize
        (List.range sizeWritten).map (fun j => b.byteAt (subIdx + j)) ++
          acceptedBytes writeBlockSize transferSize (sizeAdd current sizeWritten) (b.renewed subIdx sizeWritten)
            answers
    else []

/-- The bytes of the random words behind the seed, the high byte of a word first. -/
def streamByte (w : Width) (lfsr32 : BitVec 32) (k : Nat) : BitVec 8 :=
  (hostWord w lfsr32 (k / w.bytes + 1)).extractLsb' (8 * (w.bytes - 1 - k % w.bytes)) 8

section Stream
variable {w : Width} {lfsr32 : BitVec 32} {M c : Nat} {b : WriteBlock w}

/-- The words that are generated follow the state that the generator had. -/
theorem generate_spec (m i : Nat) (b : WriteBlock w) :
    (b.generate m i).lfsr = w.lfsrInc^[m] b.lfsr ∧ (b.generate m i).writeData.length = b.writeData.length ∧
      ∀ k < b.writeData.length, (b.generate m i).writeData.getD k 0 =
        if i ≤ k ∧ k < i + m then w.bswap (w.lfsrInc^[k - i + 1] b.lfsr) else b.writeData.getD k 0 := by
  induction m generalizing i b with
  | zero => exact ⟨rfl, rfl, fun k _ => (if_neg (by omega)).symm⟩
  | succ m ih =>
    obtain ⟨hlfsr, hlen, hwords⟩ := ih (i + 1) ⟨b.writeData.set i (w.bswap (w.lfsrInc b.lfsr)), w.lfsrInc b.lfsr⟩
    rw [List.length_set] at hlen hwords
    refine ⟨hlfsr, hlen, fun k hk => ?_⟩
    rw [WriteBlock.generate, hwords k hk]
    by_cases hin : i + 1 ≤ k ∧ k < i + 1 + m
    · have hcount : (k - (i + 1) + 1).succ = k - i + 1 := by omega
      rw [if_pos hin, if_pos (by omega), ← Function.iterate_succ_apply, hcount]
    · rw [if_neg hin]
      by_cases heq : k = i
      · subst heq
        rw [if_pos (by omega), Nat.sub_self]
        simp [List.getD_eq_getElem?_getD, hk]
      · rw [if_neg (by omega)]
        simp [List.getD_eq_getElem?_getD, List.getElem?_set_ne (Ne.symm heq)]

/-- The block with `c` bytes written: the words before the offset are those of the next pass already. -/
structure Holds (w : Width) (lfsr32 : BitVec 32) (M c : Nat) (b : WriteBlock w) : Prop where
  length : b.writeData.length = M
  lfsr : b.lfsr = hostWord w lfsr32 ((c / (M * w.bytes) + 1) * M + c % (M * w.bytes) / w.bytes)
  words : ∀ k < M, b.writeData.getD k 0 = w.bswap
    (hostWord w lfsr32 ((c / (M * w.bytes) + if k < c % (M * w.bytes) / w.bytes then 1 else 0) * M + k + 1))

theorem bytes_pos (w : Width) : 0 < w.bytes := by cases w <;> decide

private theorem bswap16_byte (v : BitVec 16) {i : Nat} (hi : i < 2) :
    (v.extractLsb' 0 8 ++ v.extractLsb' 8 8).extractLsb' (8 * i) 8 = v.extractLsb' (8 * (1 - i)) 8 := by
  ext k hk
  rw [BitVec.getElem_extractLsb', BitVec.getElem_extractLsb']
  obtain rfl | rfl : i = 0 ∨ i = 1 := by omega
  all_goals
    simp
    grind

private theorem bswap32_byte (v : BitVec 32) {i : Nat} (hi : i < 4) :
    (v.extractLsb' 0 8 ++ v.extractLsb' 8 8 ++ v.extractLsb' 16 8 ++ v.extractLsb' 24 8).extractLsb' (8 * i) 8 =
      v.extractLsb' (8 * (3 - i)) 8 := by
  ext k hk
  rw [BitVec.getElem_extractLsb', BitVec.getElem_extractLsb']
  obtain rfl | rfl | rfl | rfl : i = 0 ∨ i = 1 ∨ i = 2 ∨ i = 3 := by omega
  all_goals
    simp
    grind

/-- The low byte of a word that is swapped is its high one. -/
theorem bswap_byte (v : BitVec w.bits) {i : Nat} (hi : i < w.bytes) :
    (w.bswap v).extractLsb' (8 * i) 8 = v.extractLsb' (8 * (w.bytes - 1 - i)) 8 := by
  cases w with
  | w16 => exact bswap16_byte v hi
  | w32 => exact bswap32_byte v hi

theorem iterate_hostWord (w : Width) (lfsr32 : BitVec 32) (m k : Nat) :
    w.lfsrInc^[m] (hostWord w lfsr32 k) = hostWord w lfsr32 (k + m) := by
  rw [hostWord, hostWord, ← Function.iterate_add_apply, Nat.add_comm]

theorem holds_filled (w : Width) (lfsr32 : BitVec 32) (M : Nat) :
    Holds w lfsr32 M 0 (WriteBlock.filled w (M * w.bytes) (w.seedWord lfsr32)) := by
  obtain ⟨hlfsr, hlen, hwords⟩ := generate_spec M 0 ⟨List.replicate M 0, w.seedWord lfsr32⟩
  rw [List.length_replicate] at hlen hwords
  have hM : M * w.bytes / w.bytes = M := Nat.mul_div_cancel _ (bytes_pos w)
  rw [WriteBlock.filled, hM]
  refine ⟨hlen, ?_, fun k hk => ?_⟩
  · rw [hlfsr]
    simp [hostWord]
  · rw [hwords k hk, if_pos (by omega)]
    simp [hostWord]

/-- The bytes at the offset are the next ones of the stream. -/
theorem Holds.byteAt (h : Holds w lfsr32 M c b) {j : Nat} (hj : c % (M * w.bytes) + j < M * w.bytes) :
    b.byteAt (c % (M * w.bytes) + j) = streamByte w lfsr32 (c + j) := by
  have hpos := bytes_pos w
  have hc := Nat.div_add_mod c (M * w.bytes)
  have hindex : (c % (M * w.bytes) + j) / w.bytes < M := (Nat.div_lt_iff_lt_mul hpos).mpr hj
  have hcj : c + j = c % (M * w.bytes) + j + w.bytes * (M * (c / (M * w.bytes))) := by
    rw [← Nat.mul_assoc, Nat.mul_comm w.bytes M]
    omega
  have hnew : ¬ (c % (M * w.bytes) + j) / w.bytes < c % (M * w.bytes) / w.bytes :=
    Nat.not_lt.mpr (Nat.div_le_div_right (Nat.le_add_right _ j))
  have hword : (c + j) / w.bytes = c / (M * w.bytes) * M + (c % (M * w.bytes) + j) / w.bytes := by
    rw [hcj, Nat.add_mul_div_left _ _ hpos, Nat.add_comm, Nat.mul_comm M]
  have hbyte : (c + j) % w.bytes = (c % (M * w.bytes) + j) % w.bytes := by rw [hcj, Nat.add_mul_mod_self_left]
  rw [WriteBlock.byteAt, h.words _ hindex, if_neg hnew, bswap_byte _ (Nat.mod_lt _ hpos), streamByte, hword, hbyte,
    Nat.add_zero (c / _)]

/-- After a renewal the words before the new offset belong to the next pass, and the others to this one. -/
theorem Holds.renewed_spec (h : Holds w lfsr32 M c b) (m : Nat) :
    (b.renewed (c % (M * w.bytes)) m).writeData.length = M ∧
      (b.renewed (c % (M * w.bytes)) m).lfsr =
        hostWord w lfsr32 ((c / (M * w.bytes) + 1) * M + (c % (M * w.bytes) + m) / w.bytes) ∧
      ∀ k < M, (b.renewed (c % (M * w.bytes)) m).writeData.getD k 0 = w.bswap (hostWord w lfsr32
        ((c / (M * w.bytes) + if k < (c % (M * w.bytes) + m) / w.bytes then 1 else 0) * M + k + 1)) := by
  set first := c % (M * w.bytes) / w.bytes with hfirst
  set last := (c % (M * w.bytes) + m) / w.bytes with hlast
  have hle : first ≤ last := Nat.div_le_div_right (Nat.le_add_right _ m)
  obtain ⟨hlfsr, hlength, hwords⟩ := generate_spec (last - first) first b
  rw [h.lfsr, iterate_hostWord] at hlfsr
  rw [h.length] at hlength hwords
  refine ⟨hlength, hlfsr.trans ?_, fun k hk => (hwords k hk).trans ?_⟩
  · rw [← hfirst, Nat.add_assoc, Nat.add_sub_cancel' hle]
  · by_cases hnew : first ≤ k ∧ k < first + (last - first)
    · have hindex : first + (k - first + 1) = k + 1 := by omega
      rw [if_pos hnew, h.lfsr, iterate_hostWord, ← hfirst, Nat.add_assoc, hindex, if_pos (by omega),
        ← Nat.add_assoc]
    · have hsame : k < first ↔ k < last := by omega
      rw [if_neg hnew, h.words k hk, ← hfirst, if_congr hsame rfl rfl]

/-- The accepted bytes leave the block as it has to be for the next ones. -/
theorem Holds.renewed (h : Holds w lfsr32 M c b) (hM : 0 < M) (m : Nat)
    (hm : c % (M * w.bytes) + m ≤ M * w.bytes) :
    Holds w lfsr32 M (c + m) (b.renewed (c % (M * w.bytes)) m) := by
  obtain ⟨hlength, hlfsr, hwords⟩ := h.renewed_spec m
  have hpos : 0 < M * w.bytes := Nat.mul_pos hM (bytes_pos w)
  have hcm : c + m = c % (M * w.bytes) + m + M * w.bytes * (c / (M * w.bytes)) := by
    have hc := Nat.mod_add_div c (M * w.bytes)
    omega
  have hdiv : (c + m) / (M * w.bytes) = (c % (M * w.bytes) + m) / (M * w.bytes) + c / (M * w.bytes) :=
    hcm ▸ Nat.add_mul_div_left _ _ hpos
  have hmod : (c + m) % (M * w.bytes) = (c % (M * w.bytes) + m) % (M * w.bytes) :=
    hcm ▸ Nat.add_mul_mod_self_left ..
  obtain hlt | heq := Nat.lt_or_eq_of_le hm
  · -- the block is not at its end yet
    rw [Nat.div_eq_of_lt hlt, Nat.zero_add] at hdiv
    rw [Nat.mod_eq_of_lt hlt] at hmod
    exact ⟨hlength, by rw [hlfsr, hdiv, hmod], fun k hk => by rw [hwords k hk, hdiv, hmod]⟩
  · -- a new pass begins, and all words are those of it
    have hend : (c % (M * w.bytes) + m) / w.bytes = M := by rw [heq, Nat.mul_div_cancel _ (bytes_pos w)]
    rw [heq, Nat.div_self hpos] at hdiv
    rw [heq, Nat.mod_self] at hmod
    refine ⟨hlength, ?_, fun k hk => ?_⟩
    · rw [hlfsr, hend, hdiv, hmod, Nat.zero_div, Nat.add_comm 1, Nat.succ_mul (_ + 1), Nat.add_zero (_ + M)]
    · rw [hwords k hk, hend, if_pos hk, hdiv, hmod, Nat.zero_div, if_neg (Nat.not_lt_zero k), Nat.add_comm 1,
        Nat.add_zero (_ + 1)]

/-- The bytes from a number on, by induction on the answers. -/
theorem acceptedBytes_spec {t : Nat} {answers : List (Option Nat)} (hM : 0 < M) (ht : t < 2 ^ 64) (hle : c ≤ t)
    (h : Tool.ioStressTest.Answers (M * w.bytes) t c answers)
    (hgood : ∀ c' ∈ (writeLoop t c answers).heads,
      GoodRequest (M * w.bytes) t c' (Tool.ioStressTest.request (M * w.bytes) t c'))
    (hb : Holds w lfsr32 M c b) :
    acceptedBytes (M * w.bytes) t c b answers =
      (List.range (writeLoop t c answers).written).map fun k => streamByte w lfsr32 (c + k) := by
  induction answers generalizing c b with
  | nil =>
    rw [writeLoop]
    split <;> rfl
  | cons answer answers ih =>
    unfold writeLoop at hgood ⊢
    unfold acceptedBytes
    split at hgood
    · rename_i hlt
      rw [if_pos hlt, if_pos hlt]
      cases answer with
      | none => rfl
      | some sizeWritten =>
        obtain ⟨hrequested, hrest⟩ := h hlt
        obtain ⟨-, -, hinside⟩ := hgood c (.head _)
        have hadd : sizeAdd c sizeWritten = c + sizeWritten := sizeAdd_eq (by omega)
        have hmod := Nat.mod_lt c (Nat.mul_pos hM (bytes_pos w))
        dsimp only at hgood ⊢
        rw [hadd] at hrest hgood ⊢
        have hrenewed := hb.renewed hM sizeWritten (by omega)
        have htail := ih (by omega) hrest (fun c' hc' => hgood c' (.tail _ hc')) hrenewed
        have hhead : (List.range sizeWritten).map (fun j => b.byteAt (c % (M * w.bytes) + j)) =
            (List.range sizeWritten).map fun k => streamByte w lfsr32 (c + k) := by
          apply List.map_congr_left
          intro j hj
          have hlow := List.mem_range.mp hj
          exact hb.byteAt (by omega)
        rw [htail, hhead, List.range_add, List.map_append, List.map_map]
        simp only [Function.comp_def, Nat.add_assoc]
    · rename_i hge
      rw [if_neg hge, if_neg hge]
      rfl

/-- Whatever parts of the blocks are accepted, the bytes are those of the random words one after the other, as long as
the requests stay inside the block and the transfer. -/
theorem write_stream {t : Nat} {answers : List (Option Nat)} (hM : 0 < M) (hsize : M * w.bytes < 2 ^ 64)
    (ht : t < 2 ^ 64) (h : Tool.ioStressTest.Answers (M * w.bytes) t 0 answers)
    (hfits : ∀ c ∈ (writeLoop t 0 answers).heads, Tool.ioStressTest.Fits (M * w.bytes) t c) :
    acceptedBytes (M * w.bytes) t 0 (WriteBlock.filled w (M * w.bytes) (w.seedWord lfsr32)) answers =
      (List.range (writeLoop t 0 answers).written).map (streamByte w lfsr32) := by
  have hpos : 1 ≤ M * w.bytes := Nat.mul_pos hM (bytes_pos w)
  have hgood : ∀ c ∈ (writeLoop t 0 answers).heads,
      GoodRequest (M * w.bytes) t c (Tool.ioStressTest.request (M * w.bytes) t c) := fun c hc =>
    (good_request_iff hsize ht hpos (heads_lt c hc)).mpr (hfits c hc)
  have hstream := acceptedBytes_spec hM ht (Nat.zero_le t) h hgood (holds_filled w lfsr32 M)
  simpa only [Nat.zero_add] using hstream

/-- Two blocks of two words, in parts that end inside a word. -/
theorem write_stream_parts :
    acceptedBytes 4 8 0 (WriteBlock.filled .w16 4 (Width.w16.seedWord 1)) [some 3, some 1, some 4] =
      (List.range 8).map (streamByte .w16 1) :=
  write_stream (w := .w16) (M := 2) (by decide) (by decide) (by decide) (by decide) (by decide)

end Stream

section Test
variable {w : Width} {lfsr32 : BitVec 32} {L : WordCountLshift w} {s : IoStressTest w} {is : List (IoIn w)}
  {cmd count : BitVec w.bits} {m : Nat}

/-- The words of a test are the random words of the host, unless its seed is 0. -/
theorem testWord_seedWord (hseed : w.seedWord lfsr32 ≠ 0) (k : Nat) :
    testWord (w.seedWord lfsr32) k = hostWord w lfsr32 (k + 1) := by
  rw [testWord, if_neg hseed, hostWord, lfsrInc_eq_shift, Function.iterate_succ_apply]

theorem testWords_seedWord (hseed : w.seedWord lfsr32 ≠ 0) (k : Nat) :
    testWords (w.seedWord lfsr32) k = (List.range k).map fun j => hostWord w lfsr32 (j + 1) :=
  List.map_congr_left fun j _ => testWord_seedWord hseed j

theorem getElem?_testWords (seed : BitVec w.bits) {k : Nat} (hk : k < m) :
    (testWords seed m)[k]? = some (testWord seed k) := by
  simp [testWords, hk]

/-- A word is refused only when the setup of the test has been taken. -/
theorem Phase.Session.setup {T R S X : List (BitVec w.bits)} {p : Phase w} {seed : BitVec w.bits}
    (h : Session L T R S p) (hoffered : T ++ R = cmd :: seed :: count :: X) :
    ∃ T', T = cmd :: seed :: count :: T' ∧ T' ++ R = X := by
  cases h with
  | start => cases hoffered
  | unknown => cases hoffered
  | seeding => cases hoffered
  | counting => cases hoffered
  | writes =>
    cases hoffered
    exact ⟨_, rfl, rfl⟩
  | reads =>
    cases hoffered
    exact ⟨_, rfl, rfl⟩

/-- A device that finds only the words of the host in its FIFO refuses none and reports no error. -/
theorem write_test_accepts (L : WordCountLshift w) (h : Phase.Models s .idle)
    (his : ∀ i ∈ is, i.rst = false ∧ i.errorFlag = false) (hcmd : requestedTest cmd = some .writeTest)
    (hseed : w.seedWord lfsr32 ≠ 0) (hm : m ≤ L.words count)
    (hoffered : takenWords ((deviceWords w L.val).emitted s is) ++ refusedWords ((deviceWords w L.val).emitted s is) =
      cmd :: w.seedWord lfsr32 :: count :: (List.range m).map fun j => hostWord w lfsr32 (j + 1)) :
    refusedWords ((deviceWords w L.val).emitted s is) = [] ∧ ((deviceWords w L.val).after s is).error = false ∧
      (sentWords ((deviceWords w L.val).emitted s is) = [] ∨
        sentWords ((deviceWords w L.val).emitted s is) = [successWord w] ∧ m = L.words count) := by
  obtain ⟨p, hsession, herror⟩ := device_session L h his
  obtain ⟨T, htaken, hwords⟩ := hsession.setup hoffered
  rw [htaken] at hsession
  rw [← testWords_seedWord hseed] at hwords
  have hlength := congrArg List.length hwords
  rw [List.length_append, length_testWords] at hlength
  rw [herror]
  have hverdict : WriteVerdict (w.seedWord lfsr32) (L.words count) T (refusedWords ((deviceWords w L.val).emitted s is))
      (sentWords ((deviceWords w L.val).emitted s is)) p.error := by
    cases hsession with
    | writes _ hT => exact hT.verdict
    | reads hread _ => cases hcmd.symm.trans hread
  have hle : T.length ≤ L.words count := by omega
  obtain hlt | heq := Nat.lt_or_eq_of_le hle
  · cases hp : p.error with
    | false =>
      obtain ⟨hrefused, hsent⟩ := hverdict.unfinished hlt hp
      exact ⟨hrefused, rfl, .inl hsent⟩
    | true =>
      -- the refused word would be the word of the test at its place
      obtain ⟨v, -, hrefused, hne, -⟩ := hverdict.stopped hlt hp
      rw [hrefused] at hwords hlength
      rw [List.length_singleton] at hlength
      have hin : T.length < m := by omega
      have hplace : some v = some (testWord (w.seedWord lfsr32) T.length) := by
        rw [← getElem?_testWords (w.seedWord lfsr32) hin, ← hwords, List.getElem?_concat_length]
      exact absurd (Option.some.inj hplace) hne
  · obtain ⟨hp, hrefused, hsent⟩ := hverdict.finished heq
    rw [hrefused, List.length_nil] at hlength
    exact ⟨hrefused, hp, hsent.imp_right fun hsent => ⟨hsent, by omega⟩⟩

def acceptedRun : List (IoIn .w16) :=
  [cycleOf true 0x420A, cycleOf true 1, cycleOf true 2, cycleOf true 2, cycleOf true 4, cycleOf false 0]

theorem write_test_accepts_two :
    refusedWords ((deviceWords .w16 1).emitted resetDevice acceptedRun) = [] ∧
      ((deviceWords .w16 1).after resetDevice acceptedRun).error = false ∧
      (sentWords ((deviceWords .w16 1).emitted resetDevice acceptedRun) = [] ∨
        sentWords ((deviceWords .w16 1).emitted resetDevice acceptedRun) = [0xCAFE] ∧ 2 = singleWords.words 2) := by
  have hoffered : takenWords ((deviceWords .w16 1).emitted resetDevice acceptedRun) ++
      refusedWords ((deviceWords .w16 1).emitted resetDevice acceptedRun) =
        0x420A :: Width.w16.seedWord 1 :: 2 :: (List.range 2).map fun j => hostWord .w16 1 (j + 1) := by
    decide +kernel
  exact write_test_accepts singleWords ⟨rfl, rfl, rfl⟩ (by decide) (by decide) (by decide) (by decide) hoffered

end Test
end Glip.StressTest
