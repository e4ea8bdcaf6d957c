import Glip.Foundation.MachineInteger
import Glip.Foundation.Tokens

/-! `glip_parse_option_string` of glip.c, which counts the options in one pass and splits them in another. -/
namespace Glip.Options
open Foundation

abbrev CString := List UInt8

def comma : UInt8 := 44
def equals : UInt8 := 61

structure GlipOption where
  name : CString
  value : Option CString
  deriving DecidableEq

/-- `while (strtok(0, ",") != 0) count++`, where an `int` that overflows wraps around. -/
def countRest (count : Int) (rest : CString) : Int :=
  match h : strtok comma rest with
  | none => count
  | some (_, rest') => countRest (signedOf 32 (count + 1)) rest'
termination_by rest.length
decreasing_by exact strtok_length h

def countOptions (str : CString) : Int :=
  match strtok comma str with
  | none => 0
  | some (_, rest) => countRest 1 rest

/-- One element of `optvec`; `strndup` stops at the `\0` if it comes first. -/
def splitOption (opt : CString) : GlipOption :=
  if equals ∈ opt then
    let sep := opt.idxOf equals
    ⟨opt.take sep, some ((opt.drop (sep + 1)).take (opt.length - sep))⟩
  else ⟨opt, none⟩

/-- The second pass; none where it writes behind the end of `optvec`. -/
def fillOptions (optvec : List (Option GlipOption)) (i : Nat) (opt rest : CString) : Option (List (Option GlipOption)) :=
  if i < optvec.length then
    match h : strtok comma rest with
    | none => some (optvec.set i (some (splitOption opt)))
    | some (opt', rest') => fillOptions (optvec.set i (some (splitOption opt))) (i + 1) opt' rest'
  else none
termination_by rest.length
decreasing_by exact strtok_length h

/-- What the call stores: `*num_options`, and `*options` if it is written. An element that is still as `calloc`
made it is none. -/
structure ParsedOptions where
  numOptions : Nat
  options : Option (List (Option GlipOption))

def glipParseOptionString (str : CString) : Option ParsedOptions :=
  let count := countOptions str
  if count ≤ 0 then some ⟨unsignedOf 64 count, none⟩
  else match strtok comma str with
    | none => none
    | some (opt, rest) =>
      (fillOptions (List.replicate count.toNat none) 0 opt rest).map fun optvec => ⟨unsignedOf 64 count, some optvec⟩

def GlipOption.joined (o : GlipOption) : CString :=
  match o.value with
  | none => o.name
  | some value => o.name ++ equals :: value

/-- The option that a piece stands for: it is split at its first `=` if it has one. -/
structure Splits (piece : CString) (o : GlipOption) : Prop where
  joined : o.joined = piece
  name : equals ∉ o.name

structure ParsedOptions.Are (r : ParsedOptions) (opts : List GlipOption) : Prop where
  numOptions : r.numOptions = opts.length
  options : r.options.getD [] = opts.map some

section Split
variable {piece name value : CString} {o : GlipOption}

theorem splitOption_of_not_mem (h : equals ∉ piece) : splitOption piece = ⟨piece, none⟩ := if_neg h

theorem splitOption_append_cons (h : equals ∉ name) (value : CString) :
    splitOption (name ++ equals :: value) = ⟨name, some value⟩ := by
  have hidx : (name ++ equals :: value).idxOf equals = name.length := by
    rw [List.idxOf_append_of_notMem h, List.idxOf_cons_self, Nat.add_zero]
  have hmem : equals ∈ name ++ equals :: value := List.mem_append_right name List.mem_cons_self
  rw [splitOption, if_pos hmem, hidx]
  simp

/-- A piece stands for one option, the one that the second pass makes of it. -/
theorem splits_iff : Splits piece o ↔ splitOption piece = o := by
  constructor
  · rintro ⟨rfl, hname⟩
    obtain ⟨name, value⟩ := o
    cases value with
    | none => exact splitOption_of_not_mem hname
    | some value => exact splitOption_append_cons hname value
  · rintro rfl
    by_cases h : equals ∈ piece
    · obtain ⟨name, value, rfl, hname⟩ := List.eq_append_cons_of_mem h
      rw [splitOption_append_cons hname]
      exact ⟨rfl, hname⟩
    · rw [splitOption_of_not_mem h]
      exact ⟨rfl, h⟩

theorem forall₂_splits {ps : List CString} {opts : List GlipOption} :
    List.Forall₂ Splits ps opts ↔ ps.map splitOption = opts := by
  have hsplits : Splits = fun p o => splitOption p = o := funext fun p => funext fun o => propext splits_iff
  rw [hsplits, ← List.forall₂_map_left_iff (f := splitOption) (R := Eq), List.forall₂_eq_eq_eq]

end Split
section Passes

theorem countRest_eq (count : Int) (rest : CString) (hcount : signedOf 32 count = count) :
    countRest count rest = signedOf 32 (count + (pieces comma rest).length) := by
  fun_induction countRest count rest with
  | case1 count rest h =>
    rw [pieces_eq_strtok, h]
    simpa using hcount.symm
  | case2 count rest t rest' h ih =>
    rw [ih (signedOf_signedOf 32 _), signedOf_signedOf_add, pieces_eq_strtok comma rest, h, List.length_cons]
    push_cast
    rw [Int.add_assoc, Int.add_comm 1]

theorem countOptions_eq (str : CString) : countOptions str = signedOf 32 (pieces comma str).length := by
  rw [countOptions, pieces_eq_strtok]
  cases strtok comma str with
  | none => rfl
  | some p =>
    dsimp only
    rw [countRest_eq 1 p.2 rfl, List.length_cons, Int.add_comm]
    rfl

theorem fillOptions_eq (optvec : List (Option GlipOption)) (i : Nat) (opt rest : CString) :
    fillOptions optvec i opt rest =
      if i + (pieces comma rest).length < optvec.length then
        some (optvec.take i ++ (opt :: pieces comma rest).map (fun p => some (splitOption p)) ++
          optvec.drop (i + 1 + (pieces comma rest).length))
      else none := by
  fun_induction fillOptions optvec i opt rest with
  | case1 optvec i opt rest hlt hnone =>
    rw [pieces_eq_strtok, hnone]
    simp [hlt, List.set_eq_take_append_cons_drop]
  | case2 optvec i opt rest hlt opt' rest' hsome ih =>
    rw [ih, pieces_eq_strtok comma rest, hsome]
    simp only [List.length_set, List.length_cons]
    split_ifs
    · have htake : (optvec.set i (some (splitOption opt))).take (i + 1) = optvec.take i ++ [some (splitOption opt)] := by
        rw [List.take_add_one, List.take_set_of_le (Nat.le_refl i), List.getElem?_set_self hlt]
        rfl
      have hdrop : (optvec.set i (some (splitOption opt))).drop (i + 1 + 1 + (pieces comma rest').length) =
          optvec.drop (i + 1 + ((pieces comma rest').length + 1)) := by
        rw [List.drop_set_of_lt (by omega), Nat.add_right_comm (i + 1) 1, Nat.add_assoc (i + 1)]
      rw [htake, hdrop]
      simp
    · omega
    · omega
    · rfl
  | case3 optvec i opt rest hge => rw [if_neg (by omega)]

end Passes

def Parses (str : CString) : Prop :=
  ∃ r opts, glipParseOptionString str = some r ∧ List.Forall₂ Splits (pieces comma str) opts ∧ r.Are opts

structure GlipOption.Writable (o : GlipOption) : Prop where
  ne_nil : o.name ≠ []
  name : comma ∉ o.name ∧ equals ∉ o.name
  value : ∀ v, o.value = some v → comma ∉ v

def RoundTrips (opts : List GlipOption) : Prop :=
  ∃ r, glipParseOptionString ([comma].intercalate (opts.map GlipOption.joined)) = some r ∧ r.Are opts

theorem parses_iff (str : CString) : Parses str ↔ (pieces comma str).length < 2 ^ 31 := by
  have hcount := countOptions_eq str
  have hpieces := pieces_eq_strtok comma str
  cases htok : strtok comma str with
  | none =>
    rw [htok] at hpieces
    rw [hpieces] at hcount
    refine iff_of_true ⟨⟨0, none⟩, [], ?_, ?_, rfl, rfl⟩ (by simp [hpieces])
    · rw [glipParseOptionString, hcount]
      rfl
    · rw [hpieces]
      exact .nil
  | some p =>
    obtain ⟨opt, rest⟩ := p
    rw [htok] at hpieces
    change pieces comma str = opt :: pieces comma rest at hpieces
    have hlen : (pieces comma str).length = (pieces comma rest).length + 1 := by rw [hpieces, List.length_cons]
    have hsmall : (pieces comma str).length < 2 ^ 31 → countOptions str = (pieces comma str).length := fun h =>
      hcount.trans (signedOf_natCast (by omega))
    by_cases hpos : countOptions str ≤ 0
    · -- the counter has wrapped around to no options
      refine iff_of_false ?_ fun h => by have := hsmall h; omega
      rintro ⟨r, opts, hr, hsplit, hare⟩
      rw [glipParseOptionString, if_pos hpos, Option.some_inj] at hr
      subst hr
      obtain rfl : opts = [] := by simpa using hare.options
      have := hsplit.length_eq
      simp [hpieces] at this
    · have hfill := fillOptions_eq (List.replicate (countOptions str).toNat none) 0 opt rest
      rw [List.length_replicate, ← hpieces, Nat.zero_add] at hfill
      have hcall : glipParseOptionString str =
          (fillOptions (List.replicate (countOptions str).toNat none) 0 opt rest).map
            fun optvec => ⟨unsignedOf 64 (countOptions str), some optvec⟩ := by
        rw [glipParseOptionString, if_neg hpos, htok]
      rw [hfill] at hcall
      by_cases hroom : (pieces comma rest).length < (countOptions str).toNat
      · -- the counter has not wrapped around, since it is not less than the number of pieces
        have hlt : (pieces comma str).length < 2 ^ 31 := by
          have hmax : countOptions str < 2 ^ 31 := hcount ▸ Int.bmod_lt (by decide)
          omega
        refine iff_of_true ⟨_, _, hcall.trans (congrArg _ (if_pos hroom)), forall₂_splits.mpr rfl, ?_, ?_⟩ hlt
        · rw [hsmall hlt, List.length_map]
          exact unsignedOf_eq (by omega)
        · have hall : 0 + 1 + (pieces comma rest).length = (countOptions str).toNat := by
            rw [hsmall hlt, Int.toNat_natCast, hlen]
            omega
          rw [hall, List.drop_replicate, Nat.sub_self]
          simp
      · rw [if_neg hroom] at hcall
        refine iff_of_false (fun ⟨r, opts, hr, _⟩ => ?_) fun h => hroom ?_
        · rw [hcall] at hr
          cases hr
        · rw [hsmall h, Int.toNat_natCast, hlen]
          exact Nat.lt_succ_self _

/-- Options that are joined come back exactly if their number is an `int`. -/
theorem roundTrips_iff (opts : List GlipOption) (hopts : ∀ o ∈ opts, o.Writable) :
    RoundTrips opts ↔ opts.length < 2 ^ 31 := by
  have hsplit : List.Forall₂ Splits (opts.map GlipOption.joined) opts := by
    rw [List.forall₂_map_left_iff]
    exact List.forall₂_same.mpr fun o ho => ⟨rfl, (hopts o ho).name.2⟩
  have hpieces : pieces comma ([comma].intercalate (opts.map GlipOption.joined)) = opts.map GlipOption.joined := by
    refine pieces_intercalate (fun t ht => ?_) fun t ht => ?_
    all_goals obtain ⟨o, ho, rfl⟩ := List.mem_map.mp ht
    · obtain ⟨-, ⟨hname, -⟩, hvalue⟩ := hopts o ho
      cases hv : o.value with
      | none => rwa [GlipOption.joined, hv]
      | some v =>
        have hsep : comma ≠ equals := by decide
        simp [GlipOption.joined, hv, hname, hvalue v hv, hsep]
    · have hne := (hopts o ho).ne_nil
      cases hv : o.value with
      | none => rwa [GlipOption.joined, hv]
      | some v => simp [GlipOption.joined, hv]
  have hiff := parses_iff ([comma].intercalate (opts.map GlipOption.joined))
  rw [hpieces, List.length_map] at hiff
  rw [← hiff, Parses, hpieces]
  constructor
  · rintro ⟨r, hr, hare⟩
    exact ⟨r, opts, hr, hsplit, hare⟩
  · rintro ⟨r, opts', hr, hsplit', hare⟩
    obtain rfl := (forall₂_splits.mp hsplit').symm.trans (forall₂_splits.mp hsplit)
    exact ⟨r, hr, hare⟩

/-- Strings are parsed as they should be, and options that are joined come back, exactly where their number is an
`int`. -/
theorem parse_option_string_iff (str : CString) (opts : List GlipOption) (hopts : ∀ o ∈ opts, o.Writable) :
    (Parses str ↔ (pieces comma str).length < 2 ^ 31) ∧ (RoundTrips opts ↔ opts.length < 2 ^ 31) :=
  ⟨parses_iff str, roundTrips_iff opts hopts⟩

/-- `dev=/a=b,fast` -/
theorem parse_option_string_iff_two :
    RoundTrips [⟨[100, 101, 118], some [47, 97, 61, 98]⟩, ⟨[102, 97, 115, 116], none⟩] :=
  (parse_option_string_iff [] _ (by
    simp only [List.forall_mem_cons]
    exact ⟨⟨by decide, by decide, by decide⟩, ⟨by decide, by decide, by decide⟩, by simp⟩)).2.mpr (by decide)

private theorem pieces_replicate (n : Nat) :
    pieces comma (List.replicate n [97, comma]).flatten = List.replicate n [97] := by
  induction n with
  | zero => exact pieces_nil comma
  | succ n ih =>
    have hone : pieces comma [97] = [[97]] := pieces_of_not_mem (by decide) (by decide)
    have hcons := @pieces_append_cons _ _ comma [97] (List.replicate n [97, comma]).flatten
    rw [hone, ih] at hcons
    exact hcons

/-- Of 2 ^ 31 options none is given. -/
theorem parse_option_string_overflows : ¬Parses (List.replicate (2 ^ 31) [97, comma]).flatten := by
  rw [parses_iff, pieces_replicate, List.length_replicate]
  exact Nat.lt_irrefl _

end Glip.Options
