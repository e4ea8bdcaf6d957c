import Glip.Jtag.HostRequests
import Glip.Jtag.ResponseFrame
import Glip.Jtag.WriteTransfers

/-! The order of the bytes of a word: where the bytes of the host come to stand in the words of
the FIFOs, and when these are the big-endian words that every FIFO of GLIP has. -/
namespace Glip.Jtag
open Foundation
variable {n : Nat}

def bigEndian (W : Nat) (bytes : List Byte) : BitVec W := BitVec.ofNat W (bytes.foldl (fun x b => x * 256 + b.toNat) 0)

def bigEndianBytes (n : Nat) (word : BitVec (8 * n)) : List Byte :=
  ((List.range n).map fun i => word.extractLsb' (8 * i) 8).reverse

theorem bitsOf_bigEndian {bytes : List Byte} (h : bytes.length = n) :
    bitsOf (bigEndian (8 * n) bytes) = bytes.reverse.flatMap bitsOf := by
  have hvalue (bytes : List Byte) :
      natBits (8 * bytes.length) (bytes.foldl (fun x b => x * 256 + b.toNat) 0) = bytes.reverse.flatMap bitsOf := by
    induction bytes using List.reverseRecOn with
    | nil => rfl
    | append_singleton bytes b ih =>
      have hbase : 2 ^ 8 = 256 := rfl
      have hlast := natBits_mul_add (8 * bytes.length) (bytes.foldl (fun x b => x * 256 + b.toNat) 0) b.isLt
      rw [hbase, Nat.mul_comm 256, Nat.add_comm 8] at hlast
      rw [List.foldl_append, List.foldl_cons, List.foldl_nil, List.length_append, List.length_singleton, Nat.mul_succ,
        hlast, ih, List.reverse_append, List.reverse_singleton, List.singleton_append, List.flatMap_cons, bitsOf_eq]
  rw [bigEndian, bitsOf_ofNat, ← h, hvalue]

theorem bitsOf_word (word : BitVec (8 * n)) : bitsOf word = (bigEndianBytes n word).reverse.flatMap bitsOf := by
  rw [bigEndianBytes, List.reverse_reverse, flatMap_extracts word (Nat.le_refl _), bitsOf_eq]

/-- Both orders give one word if it reads the same in both. -/
theorem littleEndian_eq_bigEndian {bytes : List Byte} (h : bytes.length = n) :
    littleEndian (8 * n) bytes = bigEndian (8 * n) bytes ↔ bytes.reverse = bytes := by
  have hbits := bitsOf_littleEndian h
  have hbits' := bitsOf_bigEndian h
  constructor
  · intro heq
    rw [heq, hbits'] at hbits
    exact flatMap_bitsOf_injective (by decide) hbits
  · intro heq
    rw [heq] at hbits'
    exact bitsOf_injective (hbits.trans hbits'.symm)

/-- In every data transfer whose write buffer begins with the word `k` of the bytes, the words
that are accepted, and passed to the in FIFO behind those that were waiting, are big-endian. -/
def WritesBigEndian (n length : Nat) (bytes : List Byte) : Prop :=
  ∀ (s : InputPath (8 * n) length) (q : List (BitVec (8 * n))) (g : ScanGaps) (k wr rd : Nat) (req : List Byte)
    (cs : List (TapIn × Bool)), (∃ acc error, s.fsm.Drops acc error) → s.syncFifo.Holds q → wr < 2 ^ (8 * n) - 1 →
    rd < 2 ^ (8 * n) → buildJtagReq n wr rd (bytes.drop (k * n)) = some req → cs.map Prod.fst = g.scan (drscanBits req) →
    let accepted := (inputAccepts (8 * n) length).emitted s cs
    accepted = ((wordsOf n wr (bytes.drop (k * n))).map (bigEndian (8 * n))).take accepted.length ∧
      ∃ q', ((inputPath (8 * n) length).after s cs).syncFifo.Holds q' ∧
        (inputPath (8 * n) length).emitted s cs ++ q' = q ++ accepted

/-- In every data transfer the host reads the words that are taken out of the out FIFO with
their most significant byte first. -/
def ReadsBigEndian (n : Nat) (fifo : Nat → BitVec (8 * n)) : Prop :=
  ∀ (s : Target (8 * n)) (f : FifoSide (8 * n)) (wr rd : Nat) (writeBuf req : List Byte), s.Ready → f.fifo = fifo →
    wr < 2 ^ (8 * n) - 1 → rd < 2 ^ (8 * n) → buildJtagReq n wr rd writeBuf = some req →
    let scan := (target f).emitted s ((drscanBits req).map TapIn.bit).zipIdx
    let popped := scan.flatMap Prod.snd
    readBytes n popped.length (jtagDrscanRead (openocdAnswer (bytesOf req.length (scan.map Prod.fst)))) =
      popped.flatMap (bigEndianBytes n)

theorem scan_words (g : ScanGaps) (ws : List (BitVec (8 * n))) :
    g.scan (ws.flatMap bitsOf) =
      g.idle.map .quiet ++ .captureDr g.capture :: (ws.flatMap shiftWord ++ (g.exit.map .quiet ++ [.updateDr g.update])) := by
  have hbits : (ws.flatMap bitsOf).map TapIn.bit = ws.flatMap shiftWord := List.map_flatMap
  rw [ScanGaps.scan, hbits]
  simp only [List.append_assoc, List.cons_append, List.nil_append]

/-- A write transfer in the bytes of the host: the words that are accepted have their first
byte in the least significant place, and an empty path accepts some. -/
theorem writes_little {length wr rd k : Nat} {s : InputPath (8 * n) length} {q : List (BitVec (8 * n))} {g : ScanGaps}
    {bytes req : List Byte} {cs : List (TapIn × Bool)} (hn : 1 ≤ n ∧ n ≤ 4)
    (hdrops : ∃ acc error, s.fsm.Drops acc error) (hq : s.syncFifo.Holds q)
    (hwr : wr < 2 ^ (8 * n) - 1) (hrd : rd < 2 ^ (8 * n)) (hreq : buildJtagReq n wr rd (bytes.drop (k * n)) = some req)
    (hcs : cs.map Prod.fst = g.scan (drscanBits req)) :
    let accepted := (inputAccepts (8 * n) length).emitted s cs
    accepted = ((wordsOf n wr (bytes.drop (k * n))).map (littleEndian (8 * n))).take accepted.length ∧
      (∃ q', ((inputPath (8 * n) length).after s cs).syncFifo.Holds q' ∧
        (inputPath (8 * n) length).emitted s cs ++ q' = q ++ accepted) ∧
      (0 < length → q = [] → accepted = [] → wr = 0) := by
  intro accepted
  let words := (wordsOf n wr (bytes.drop (k * n))).map (littleEndian (8 * n))
  let t : Transfer := ⟨wr, rd, g.idle, g.capture, g.exit, g.update, fun _ => false⟩
  have hlen : words.length = wr := by simp [words]
  have hpayload : t.payload words = words := List.take_of_length_le (Nat.le_of_eq hlen)
  have hscan : (s.trace cs).map Prod.fst = t.lead words ++ t.tail (8 * n) := by
    rw [InputPath.trace_fst, hcs, drscanBits_eq, buildJtagReq_bits hn hreq, scan_words, Transfer.lead, hpayload,
      Transfer.tail, List.flatMap_append]
    simp only [List.append_assoc, List.cons_append]
    rfl
  obtain ⟨acc, error, hdrops⟩ := hdrops
  obtain ⟨a, hle, -, hem, hcalm, hall, -⟩ := transfer_cycles (by omega) ⟨hwr, hrd⟩ hscan hdrops
  rw [hpayload] at hle hem hall
  have haccepted : accepted = words.take a := (InputPath.accepts_eq cs).trans hem
  have hlength : accepted.length = a := by rw [haccepted, List.length_take_of_le hle]
  refine ⟨?_, InputPath.run_holds hq hcalm, ?_⟩
  · rw [hlength]
    exact haccepted
  · rintro hpos rfl hnil
    rw [hnil, hall (InputPath.trace_ready hpos hq hcalm hnil), hlen] at hlength
    exact hlength.symm

/-- The words of a request are words of what the user writes. -/
theorem mem_wordsOf_drop (hn : 0 < n) {bytes word : List Byte} {k wr : Nat} (hle : wr * n ≤ (bytes.drop (k * n)).length)
    (hword : word ∈ wordsOf n wr (bytes.drop (k * n))) : word ∈ wordsOf n (bytes.length / n) bytes := by
  obtain ⟨j, hj, rfl⟩ := mem_wordsOf.mp hword
  have hin : k + j < bytes.length / n := by
    have hpos : 0 < wr * n := Nat.mul_pos (by omega) hn
    rw [List.length_drop] at hle
    have hfits : (k + wr) * n ≤ bytes.length := by
      rw [Nat.add_mul]
      omega
    have := (Nat.le_div_iff_mul_le hn).mpr hfits
    omega
  exact mem_wordsOf.mpr ⟨k + j, hin, by rw [List.drop_drop, Nat.add_mul]⟩

/-- A request with this word alone tells the two orders apart. -/
theorem WritesBigEndian.reverse_eq (hn : 1 ≤ n ∧ n ≤ 4) {length : Nat} (hlength : 0 < length) {bytes word : List Byte}
    (hbytes : n ∣ bytes.length) (h : WritesBigEndian n length bytes) (hword : word ∈ wordsOf n (bytes.length / n) bytes) :
    word.reverse = word := by
  have hwhole : bytes.length / n * n = bytes.length := Nat.div_mul_cancel hbytes
  have hsize : word.length = n := length_of_mem_wordsOf hword (Nat.le_of_eq hwhole)
  obtain ⟨k, hk, hdrop⟩ := mem_wordsOf.mp hword
  let s₀ : InputPath (8 * n) length := ⟨⟨.idle, 0, 0, 0, 0, false, false⟩, ⟨fun _ => 0, 0⟩⟩
  let s := s₀.next true (.quiet false) false
  obtain ⟨hdrops, q, hq, hnil⟩ := between_reset s₀ (.quiet false) false []
  rw [List.append_nil] at hnil
  subst hnil
  let g : ScanGaps := ⟨[], false, [], false⟩
  obtain ⟨req, hreq⟩ : ∃ req, buildJtagReq n 1 0 (bytes.drop (k * n)) = some req := by
    have := congrArg List.length hdrop
    rw [List.length_take] at this
    exact ⟨_, if_pos (by omega)⟩
  let cs := (g.scan (drscanBits req)).map (·, false)
  have hcs : cs.map Prod.fst = g.scan (drscanBits req) := by
    rw [List.map_map]
    exact List.map_id' _
  have hwr : 1 < 2 ^ (8 * n) - 1 := by
    have : 2 ^ 8 ≤ 2 ^ (8 * n) := Nat.pow_le_pow_right (by decide) (by omega)
    omega
  obtain ⟨hlittle, -, hnone⟩ := writes_little (s := s) hn hdrops hq hwr (Nat.two_pow_pos _) hreq hcs
  obtain ⟨hbig, -⟩ := h s [] g k 1 0 req cs hdrops hq hwr (Nat.two_pow_pos _) hreq hcs
  have hword : wordsOf n 1 (bytes.drop (k * n)) = [word] := by rw [wordsOf, hdrop, wordsOf]
  rw [hword] at hlittle hbig
  obtain ⟨a, ha⟩ : ∃ a, ((inputAccepts (8 * n) length).emitted s cs).length = a + 1 := by
    apply Nat.exists_eq_succ_of_ne_zero
    intro h0
    exact absurd (hnone hlength rfl (List.eq_nil_of_length_eq_zero h0)) (by decide)
  rw [ha] at hlittle hbig
  have heq := hlittle.symm.trans hbig
  rw [List.map_singleton, List.map_singleton, List.take_succ_cons, List.take_succ_cons] at heq
  exact (littleEndian_eq_bigEndian hsize).mp (List.cons.inj heq).1

theorem writes_big_endian_iff (hn : 1 ≤ n ∧ n ≤ 4) {length : Nat} (hlength : 0 < length) {bytes : List Byte}
    (hbytes : n ∣ bytes.length) :
    WritesBigEndian n length bytes ↔ ∀ word ∈ wordsOf n (bytes.length / n) bytes, word.reverse = word := by
  constructor
  · intro h word hword
    exact h.reverse_eq hn hlength hbytes hword
  · intro h s q g k wr rd req cs hdrops hq hwr hrd hreq hcs
    obtain ⟨hlittle, hpassed, -⟩ := writes_little hn hdrops hq hwr hrd hreq hcs
    refine ⟨?_, hpassed⟩
    have hle : wr * n ≤ (bytes.drop (k * n)).length := by
      rw [buildJtagReq] at hreq
      split at hreq
      case isTrue hle => exact hle
      case isFalse => cases hreq
    have hwords : ∀ word ∈ wordsOf n wr (bytes.drop (k * n)), littleEndian (8 * n) word = bigEndian (8 * n) word := by
      intro word hword
      apply (littleEndian_eq_bigEndian (length_of_mem_wordsOf hword hle)).mpr
      exact h word (mem_wordsOf_drop hn.1 hle hword)
    rw [← List.map_congr_left hwords]
    exact hlittle

/-- The host reads every word that is taken with its least significant byte first. -/
theorem reads_little {s : Target (8 * n)} {f : FifoSide (8 * n)} {wr rd : Nat} {writeBuf req : List Byte}
    (hn : 1 ≤ n ∧ n ≤ 4) (hs : s.Ready) (hwr : wr < 2 ^ (8 * n) - 1) (hrd : rd < 2 ^ (8 * n))
    (hreq : buildJtagReq n wr rd writeBuf = some req) :
    let scan := (target f).emitted s ((drscanBits req).map TapIn.bit).zipIdx
    let popped := scan.flatMap Prod.snd
    readBytes n popped.length (jtagDrscanRead (openocdAnswer (bytesOf req.length (scan.map Prod.fst)))) =
        popped.flatMap (fun word => (bigEndianBytes n word).reverse) ∧
      popped = (List.range popped.length).map (fun k => f.fifo (s.popped + k)) ∧
      (rd < wr → (∀ k, f.fifoValid k = true) → popped.length = rd) := by
  intro scan popped
  let payload := (wordsOf n wr writeBuf).map (littleEndian (8 * n))
  have hpayload : payload.length = wr := by simp [payload]
  have hcycles : (drscanBits req).map TapIn.bit = (request rd payload).flatMap shiftWord := by
    rw [drscanBits_eq, buildJtagReq_bits hn hreq]
    exact List.map_flatMap
  have hcs : (((drscanBits req).map TapIn.bit).zipIdx).map Prod.fst = (request rd payload).flatMap shiftWord :=
    (List.zipIdx_map_fst 0 _).trans hcycles
  obtain ⟨s', head, ps, tail, hsends, hhead, hps, -, hbad⟩ := request_sends (by omega) hs f (hpayload ▸ hwr) hrd hcs
  have hpopped : popped = ps := by
    rw [← hsends.taken, OutputFsm.taken, ← Target.emitted_eq]
  have hsent : scan.map Prod.fst = head ++ (ps.flatMap bitsOf ++ zeros (8 * n) (max payload.length rd - ps.length) ++ tail) :=
    (congrArg (List.map Prod.fst) (Target.emitted_eq _)).trans hsends.sent
  have hlength : (scan.map Prod.fst).length = 8 * req.length := by
    have hscan : scan.map Prod.fst = _ := congrArg (List.map Prod.fst) (Target.emitted_eq _)
    have htrace := congrArg List.length (Target.outputTrace_tap (s := s) (f := f) ((drscanBits req).map TapIn.bit).zipIdx)
    have hbits : (drscanBits req).length = 8 * req.length := by rw [drscanBits_eq, length_flatMap_bitsOf]
    rw [List.length_map, List.length_map, List.length_zipIdx, List.length_map, hbits] at htrace
    rw [hscan, ← htrace]
    exact OutputFsm.length_sent
  refine ⟨?_, ?_, ?_⟩
  · apply flatMap_bitsOf_injective (show 0 < 8 by decide)
    have hwords : (popped.flatMap fun word => (bigEndianBytes n word).reverse).flatMap bitsOf = ps.flatMap bitsOf := by
      rw [List.flatMap_assoc, hpopped]
      exact List.flatMap_congr fun word _ => (bitsOf_word word).symm
    have hbits : (ps.flatMap bitsOf).length = 8 * (ps.length * n) := by
      rw [length_flatMap_bitsOf, Nat.mul_assoc, Nat.mul_comm n]
    simp only [hwords]
    rw [jtagDrscanRead_openocdAnswer, readBytes, flatMap_take, flatMap_drop, flatMap_bytesOf hlength, hsent, hpopped,
      show 8 * (n * 2) = head.length by omega, List.drop_left, List.append_assoc, ← hbits, List.take_left]
  · rw [hpopped, ← hsends.taken]
    exact Target.taken_eq _
  · intro hlt hvalid
    rw [hpopped]
    by_cases h0 : rd = 0
    · omega
    · refine (hbad fun hin => ?_).2
      rw [hcycles] at hin
      rcases (inTime_outputTrace (by omega) f payload rd).mp hin with hin | hin | ⟨j, -, hj⟩
      · exact h0 hin
      · omega
      · rw [hvalid] at hj
        cases hj

theorem reads_big_endian_iff (hn : 1 ≤ n ∧ n ≤ 4) (fifo : Nat → BitVec (8 * n)) :
    ReadsBigEndian n fifo ↔ ∀ k, (bigEndianBytes n (fifo k)).reverse = bigEndianBytes n (fifo k) := by
  constructor
  · intro h k
    let s : Target (8 * n) := ⟨⟨.idle, 0, 0, 0, 0, false, false⟩, ⟨.idle, 0, 0, 0, 0, 0, 0, 0, 0⟩, k⟩
    let f : FifoSide (8 * n) := ⟨fun _ => true, fun _ => true, fifo, fun _ => 0⟩
    have hs : s.Ready := ⟨rfl, rfl, rfl, rfl, rfl⟩
    let writeBuf : List Byte := List.replicate (2 * n) 0
    obtain ⟨req, hreq⟩ : ∃ req, buildJtagReq n 2 1 writeBuf = some req :=
      ⟨_, if_pos (Nat.le_of_eq List.length_replicate.symm)⟩
    have hpow : 2 ^ 8 ≤ 2 ^ (8 * n) := Nat.pow_le_pow_right (by decide) (by omega)
    obtain ⟨hlittle, hfifo, hpopped⟩ := reads_little (f := f) hn hs (by omega) (by omega) hreq
    have hbig := h s f 2 1 writeBuf req hs rfl (by omega) (by omega) hreq
    have heq := hlittle.symm.trans hbig
    rw [hpopped (by decide) fun _ => rfl] at hfifo
    rw [hfifo] at heq
    simpa using heq
  · intro h s f wr rd writeBuf req hs hf hwr hrd hreq scan popped
    obtain ⟨hlittle, hfifo, -⟩ := reads_little hn hs hwr hrd hreq
    refine hlittle.trans (List.flatMap_congr fun word hword => ?_)
    rw [hfifo, hf] at hword
    obtain ⟨j, -, rfl⟩ := List.mem_map.mp hword
    exact h _

/-- The bytes are in the order of GLIP if and only if those of every word read the same in both
orders, as they do if a word is one byte. -/
theorem byte_order_iff (hn : 1 ≤ n ∧ n ≤ 4) {length : Nat} (hlength : 0 < length) {bytes : List Byte}
    (hbytes : n ∣ bytes.length) (fifo : Nat → BitVec (8 * n)) :
    WritesBigEndian n length bytes ∧ ReadsBigEndian n fifo ↔
      (∀ word ∈ wordsOf n (bytes.length / n) bytes, word.reverse = word) ∧
        ∀ k, (bigEndianBytes n (fifo k)).reverse = bigEndianBytes n (fifo k) :=
  and_congr (writes_big_endian_iff hn hlength hbytes) (reads_big_endian_iff hn fifo)

set_option maxRecDepth 8000 in
/-- With words of two bytes the first byte written arrives as the least significant one, and the
first one read is the least significant one. -/
theorem byte_order_reversed :
    let s : InputPath 16 4 := ⟨⟨.dropPacket, 0, 0, 0, 0, false, false⟩, ⟨fun _ => 0, 1⟩⟩
    let g : ScanGaps := ⟨[], false, [], false⟩
    let target₀ : Target 16 := ⟨⟨.idle, 0, 0, 0, 0, false, false⟩, ⟨.idle, 0, 0, 0, 0, 0, 0, 0, 0⟩, 0⟩
    let f : FifoSide 16 := ⟨fun _ => true, fun _ => true, fun _ => 0x1234, fun _ => 0⟩
    (buildJtagReq 2 1 0 [0x12, 0x34]).map (fun req =>
        (inputPath 16 4).emitted s ((g.scan (drscanBits req)).map (·, true))) = some [0x3412] ∧
      bigEndian 16 [0x12, 0x34] = 0x1234 ∧
      (buildJtagReq 2 0 1 []).map (fun req =>
        let scan := (target f).emitted target₀ ((drscanBits req).map TapIn.bit).zipIdx
        readBytes 2 1 (jtagDrscanRead (openocdAnswer (bytesOf req.length (scan.map Prod.fst))))) = some [0x34, 0x12] ∧
      bigEndianBytes 2 0x1234 = [0x12, 0x34] ∧
      ¬(WritesBigEndian 2 4 [0x12, 0x34] ∧ ReadsBigEndian 2 fun _ => 0x1234) := by
  intro s g target₀ f
  refine ⟨by decide, by decide, by decide, by decide, fun h => ?_⟩
  have := (writes_big_endian_iff (by decide) (by decide) (by decide)).mp h.1
  exact absurd this (by decide)

/-- Words of one byte have no order of bytes. -/
theorem byte_order_iff_one : WritesBigEndian 1 4 [0x12, 0x34] ∧ ReadsBigEndian 1 fun k => BitVec.ofNat 8 k := by
  apply (byte_order_iff (n := 1) (by decide) (show 0 < 4 by decide) (show 1 ∣ ([0x12, 0x34] : List Byte).length by decide)
    (BitVec.ofNat 8)).mpr
  constructor
  · decide
  · intro k
    rfl

end Glip.Jtag
