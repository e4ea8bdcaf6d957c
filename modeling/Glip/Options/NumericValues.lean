import Glip.Foundation.Strtoul
import Glip.Options.ParseString

/-! The functions of glip.c that read numbers out of options. -/
namespace Glip.Options
open Foundation

/-- A return code that is not 0, or 0 with the value stored; none is a crash. -/
abbrev Getter := Option (Except Int Nat)

def glipOptionGetUint32 (options : List GlipOption) (optionName : CString) : Getter :=
  match options.find? (·.name = optionName) with
  | none => some (.error (-1))
  | some o => match o.value with
    -- `strtoul` reads through the null pointer
    | none => none
    | some value =>
      let r := strtoul value
      if (r.errno = .erange ∧ r.val = ulongMax) ∨ (r.errno ≠ .zero ∧ r.val = 0) then some (.error (-1))
      else
        let val := if r.endptr.length = value.length then 0 else r.val
        some (.ok (unsignedOf 32 val))

def getNarrow (most : Nat) (options : List GlipOption) (optionName : CString) : Getter :=
  match glipOptionGetUint32 options optionName with
  | none => none
  | some (.error rv) => some (.error rv)
  | some (.ok tmp) => some (.ok (if tmp > most then most else tmp))

def glipOptionGetUint16 : List GlipOption → CString → Getter := getNarrow 0xFFFF

def glipOptionGetUint8 : List GlipOption → CString → Getter := getNarrow 0xFF

def Answers (g : Getter) : Prop := ∃ r, g = some r ∧ ∀ rv, r = .error rv → rv < 0

/-- The getters answer, and those of the narrow types store a number that the first option with the key has as
it is or cut down to the largest value of the type. -/
structure Reads (options : List GlipOption) (optionName : CString) : Prop where
  uint32 : Answers (glipOptionGetUint32 options optionName)
  uint16 : Answers (glipOptionGetUint16 options optionName)
  uint8 : Answers (glipOptionGetUint8 options optionName)
  saturates : ∀ o value v, options.find? (·.name = optionName) = some o → o.value = some value → Denotes value v →
    v ≤ ulongMax → glipOptionGetUint16 options optionName = some (.ok (min v 0xFFFF)) ∧
      glipOptionGetUint8 options optionName = some (.ok (min v 0xFF))

section Getters
variable {options : List GlipOption} {optionName value : CString} {o : GlipOption} {v : Nat}

theorem glipOptionGetUint32_of_denotes (ho : options.find? (·.name = optionName) = some o) (hv : o.value = some value)
    (h : Denotes value v) (hle : v ≤ ulongMax) : glipOptionGetUint32 options optionName = some (.ok (v % 2 ^ 32)) := by
  obtain ⟨hstr, hne⟩ := strtoul_denotes h hle
  have hlen : ¬([] : CString).length = value.length := fun h => hne (List.eq_nil_of_length_eq_zero h.symm)
  simp only [glipOptionGetUint32, ho, hv, hstr]
  rw [if_neg (by simp), if_neg hlen, unsignedOf_natCast]

/-- What the narrow getters make of it. -/
theorem getNarrow_of_denotes (most : Nat) (ho : options.find? (·.name = optionName) = some o)
    (hv : o.value = some value) (h : Denotes value v) (hle : v ≤ ulongMax) :
    getNarrow most options optionName = some (.ok (min (v % 2 ^ 32) most)) := by
  rw [getNarrow, glipOptionGetUint32_of_denotes ho hv h hle]
  dsimp only
  congr 2
  split <;> omega

theorem answers_ok (v : Nat) : Answers (some (.ok v)) := ⟨_, rfl, nofun⟩

theorem answers_error : Answers (some (.error (-1))) := ⟨_, rfl, by rintro _ ⟨⟩; decide⟩

theorem not_answers_none : ¬Answers none := by
  rintro ⟨r, hr, -⟩
  cases hr

/-- A getter answers unless it crashes. -/
theorem answers_uint32_iff : Answers (glipOptionGetUint32 options optionName) ↔
    ∀ o, options.find? (·.name = optionName) = some o → o.value ≠ none := by
  unfold glipOptionGetUint32
  cases options.find? (·.name = optionName) with
  | none => exact iff_of_true answers_error nofun
  | some o =>
    cases hvalue : o.value with
    | none =>
      simp only [hvalue]
      exact iff_of_false not_answers_none fun h => h o rfl hvalue
    | some value =>
      simp only [hvalue]
      refine iff_of_true ?_ fun o' ho' => by cases ho'; simp [hvalue]
      split
      · exact answers_error
      · exact answers_ok _

theorem answers_getNarrow_iff (most : Nat) : Answers (getNarrow most options optionName) ↔
    Answers (glipOptionGetUint32 options optionName) := by
  unfold getNarrow
  cases glipOptionGetUint32 options optionName with
  | none => rfl
  | some r =>
    cases r with
    | error rv => rfl
    | ok tmp => exact iff_of_true (answers_ok _) (answers_ok tmp)

end Getters

/-- They do exactly if the first option with the key, if there is one, has a value, and its number does not lose
its size when it is cut off to 32 bits. -/
theorem option_getters_read_iff (options : List GlipOption) (optionName : CString) :
    Reads options optionName ↔ ∀ o, options.find? (·.name = optionName) = some o →
      ∃ value, o.value = some value ∧
        ∀ v, Denotes value v → v ≤ ulongMax → v < 2 ^ 32 ∨ 0xFFFF ≤ v % 2 ^ 32 := by
  constructor
  · intro h o ho
    obtain ⟨value, hvalue⟩ := Option.ne_none_iff_exists'.mp (answers_uint32_iff.mp h.uint32 o ho)
    refine ⟨value, hvalue, fun v hv hle => ?_⟩
    have hwant := (h.saturates o value v ho hvalue hv hle).1
    have hget := getNarrow_of_denotes 0xFFFF ho hvalue hv hle
    have heq : min v 0xFFFF = min (v % 2 ^ 32) 0xFFFF := by
      simpa using hwant.symm.trans hget
    omega
  · intro h
    have hanswers : Answers (glipOptionGetUint32 options optionName) := by
      refine answers_uint32_iff.mpr fun o ho => ?_
      obtain ⟨value, hvalue, -⟩ := h o ho
      simp [hvalue]
    refine ⟨hanswers, (answers_getNarrow_iff _).mpr hanswers, (answers_getNarrow_iff _).mpr hanswers, ?_⟩
    intro o value v ho hvalue hv hle
    obtain ⟨value', hvalue', hsize⟩ := h o ho
    obtain rfl : value' = value := Option.some.inj (hvalue'.symm.trans hvalue)
    have hfits := hsize v hv hle
    have h16 : min v 0xFFFF = min (v % 2 ^ 32) 0xFFFF := by omega
    have h8 : min v 0xFF = min (v % 2 ^ 32) 0xFF := by omega
    rw [h16, h8]
    exact ⟨getNarrow_of_denotes 0xFFFF ho hvalue hv hle, getNarrow_of_denotes 0xFF ho hvalue hv hle⟩

/-- The string `s,n=4294967296`: the getter for `s` crashes, and 0 is stored for `n`, whose number is 2 ^ 32. -/
theorem option_getters_fail :
    let options : List GlipOption := [⟨[115], none⟩, ⟨[110], some [52, 50, 57, 52, 57, 54, 55, 50, 57, 54]⟩]
    RoundTrips options ∧ glipOptionGetUint16 options [115] = none ∧
      Denotes [52, 50, 57, 52, 57, 54, 55, 50, 57, 54] (2 ^ 32) ∧ glipOptionGetUint16 options [110] = some (.ok 0) ∧
      glipOptionGetUint8 options [110] = some (.ok 0) := by
  intro options
  have hden : Denotes [52, 50, 57, 52, 57, 54, 55, 50, 57, 54] (2 ^ 32) :=
    ⟨[], [], _, rfl, nofun, .inl rfl, .decimal 52 _ (by decide) (List.all_eq_true.mp (by decide))⟩
  have hvalid : RoundTrips options := (roundTrips_iff options (by
    simp only [options, List.forall_mem_cons]
    exact ⟨⟨by decide, by decide, by decide⟩, ⟨by decide, by decide, by decide⟩, by simp⟩)).mpr (by decide)
  refine ⟨hvalid, rfl, hden, ?_, ?_⟩
  · exact getNarrow_of_denotes 0xFFFF rfl rfl hden (by decide)
  · exact getNarrow_of_denotes 0xFF rfl rfl hden (by decide)

end Glip.Options
