import UnagiOs.Theory.TypedInput
import UnagiOs.Util.PrintfText

/-!
# The types of a format

A format tells which arguments it needs. `Typed` is the judgement, over the format alone: a
directive takes a word for each `*` and then an argument of the type of its specifier and its
length, and a directive without a specifier has no type.

- `vsnprintf_isSome_iff`: a call has a meaning exactly when the format is typed and the arguments
  begin with arguments of its types, in this order.
-/

namespace UnagiOs.Printf

variable {format rest : List UInt8} {ts : List ArgType}

/-- The types of the arguments. -/
inductive ArgType where
  | word
  | longLong
  | string
  | double
  deriving DecidableEq, Repr

variable {D : Type}

def Arg.type : Arg D → ArgType
  | .word _ => .word
  | .longLong _ => .longLong
  | .string _ => .string
  | .double _ => .double

/-! ## What a format tells -/

/-- The types of the width field, with the rest of the format. -/
def widthTypes : List UInt8 → List ArgType × List UInt8
  | [] => ([], [])
  | c :: format =>
    if isDigit c then ([], (atoi (c :: format) 0).2)
    else if c = '*'.toUInt8 then ([.word], format)
    else ([], c :: format)

/-- The types of the precision field. -/
def precisionTypes : List UInt8 → List ArgType × List UInt8
  | [] => ([], [])
  | c :: format => if c = '.'.toUInt8 then widthTypes format else ([], c :: format)

/-- Whether the length field asks for a `long long`. -/
def lengthType : List UInt8 → Bool × List UInt8
  | [] => (false, [])
  | c :: format =>
    if c = 'l'.toUInt8 then
      match format with
      | [] => (false, [])
      | c :: format => if c = 'l'.toUInt8 then (true, format) else (false, c :: format)
    else if c = 'h'.toUInt8 then
      match format with
      | [] => (false, [])
      | c :: format => if c = 'h'.toUInt8 then (false, format) else (false, c :: format)
    else if c = 'j'.toUInt8 then (true, format)
    else if c = 't'.toUInt8 ∨ c = 'z'.toUInt8 then (false, format)
    else (false, c :: format)

/-- The types of a specifier. -/
def specifierTypes (longLong : Bool) : Specifier → List ArgType
  | .integer _ _ _ => [if longLong then .longLong else .word]
  | .fixed _ => [.double]
  | .exponential _ _ => [.double]
  | .char => [.word]
  | .string => [.string]
  | .pointer => [.word]
  | .other _ => []

/-- The types of a directive, behind its `%`. -/
def directiveTypes (format : List UInt8) : Option (List ArgType × List UInt8) :=
  let width := widthTypes (parseFlags format {}).2
  let precision := precisionTypes width.2
  let length := lengthType precision.2
  match length.2 with
  | [] => none
  | c :: format => some (width.1 ++ precision.1 ++ specifierTypes length.1 (specifier c), format)

/-- `Typed format ts`: the format needs arguments of the types `ts`. -/
inductive Typed : List UInt8 → List ArgType → Prop where
  | nil : Typed [] []
  | char {c : UInt8} {format : List UInt8} {ts : List ArgType} (hc : c ≠ '%'.toUInt8)
      (h : Typed format ts) : Typed (c :: format) ts
  | directive {format rest : List UInt8} {ts ts' : List ArgType}
      (hd : directiveTypes format = some (ts, rest)) (h : Typed rest ts') :
      Typed ('%'.toUInt8 :: format) (ts ++ ts')

/-! ## The parts of a directive -/

theorem parseFlags_flags (format : List UInt8) (flags : Flags) :
    (parseFlags format flags).2 = (parseFlags format {}).2 ∧
      (parseFlags format flags).1.longLong = flags.longLong := by
  -- the loop looks at the characters only
  have hrest : ∀ flags', (parseFlags format flags).2 = (parseFlags format flags').2 ∧
      (parseFlags format flags).1.longLong = flags.longLong := by
    induction format generalizing flags with
    | nil => exact fun _ => ⟨rfl, rfl⟩
    | cons c format ih =>
      intro flags'
      unfold parseFlags
      split
      · exact ih _ _
      split
      · exact ih _ _
      split
      · exact ih _ _
      split
      · exact ih _ _
      split
      · exact ih _ _
      exact ⟨rfl, rfl⟩
  exact hrest {}

section Parts

variable (d : Directive D)

/-- The field takes arguments of its types, leaves the rest of the format and does not touch the
length. -/
def Fields (types : List ArgType × List UInt8) (r : Option (Directive D)) : Prop :=
  Takes Arg.type types.1 d.va Directive.va r ∧
    ∀ d' ∈ r, d'.format = types.2 ∧ d'.flags.longLong = d.flags.longLong

variable {d} {d' : Directive D} {types : List ArgType × List UInt8}

theorem Fields.of_takes (h : Takes Arg.type types.1 d.va Directive.va (some d'))
    (hformat : d'.format = types.2) (hlong : d'.flags.longLong = d.flags.longLong) :
    Fields d types (some d') := by
  refine ⟨h, fun d'' hd'' => ?_⟩
  obtain rfl := Option.some.inj hd''
  exact ⟨hformat, hlong⟩

theorem Fields.refused {t : ArgType} {format : List UInt8} (h : ∀ a ∈ d.va.head?, a.type ≠ t) :
    Fields d ([t], format) none :=
  ⟨Takes.refused h, fun _ hd => absurd hd.symm (Option.some_ne_none _)⟩

variable (d)

theorem fields_parseWidth : Fields d (widthTypes d.format) (parseWidth d) := by
  obtain ⟨flags, width, precision, format, va⟩ := d
  cases format with
  | nil => exact .of_takes (Takes.nothing rfl) rfl rfl
  | cons c format =>
    unfold parseWidth widthTypes
    dsimp only
    split
    · exact .of_takes (Takes.nothing rfl) rfl rfl
    split
    · rcases va with _ | ⟨w | v | p | value, va⟩
      · exact .refused nofun
      · dsimp only
        split
        · exact .of_takes (Takes.one rfl rfl) rfl rfl
        · exact .of_takes (Takes.one rfl rfl) rfl rfl
      all_goals exact .refused nofun
    · exact .of_takes (Takes.nothing rfl) rfl rfl

/-- The precision takes an argument where it is a star. -/
theorem fields_parsePrecision : Fields d (precisionTypes d.format) (parsePrecision d) := by
  obtain ⟨flags, width, precision, format, va⟩ := d
  cases format with
  | nil => exact .of_takes (Takes.nothing rfl) rfl rfl
  | cons c format =>
    unfold parsePrecision precisionTypes
    dsimp only
    split
    · cases format with
      | nil => exact .of_takes (Takes.nothing rfl) rfl rfl
      | cons c format =>
        unfold widthTypes
        dsimp only
        split
        · exact .of_takes (Takes.nothing rfl) rfl rfl
        split
        · rcases va with _ | ⟨w | v | p | value, va⟩
          · exact .refused nofun
          · exact .of_takes (Takes.one rfl rfl) rfl rfl
          all_goals exact .refused nofun
        · exact .of_takes (Takes.nothing rfl) rfl rfl
    · exact .of_takes (Takes.nothing rfl) rfl rfl

/-- The length takes no argument, and of it only the type matters. -/
theorem parseLength_spec :
    (parseLength d).va = d.va ∧ (parseLength d).format = (lengthType d.format).2 ∧
      (parseLength d).flags.longLong = (d.flags.longLong || (lengthType d.format).1) := by
  obtain ⟨flags, width, precision, format, va⟩ := d
  have hfalse : flags.longLong = (flags.longLong || false) := (Bool.or_false _).symm
  have htrue : true = (flags.longLong || true) := (Bool.or_true _).symm
  cases format with
  | nil => exact ⟨rfl, rfl, hfalse⟩
  | cons c format =>
    unfold parseLength lengthType
    dsimp only
    split
    · cases format with
      | nil => exact ⟨rfl, rfl, hfalse⟩
      | cons c format =>
        dsimp only
        split
        · exact ⟨rfl, rfl, htrue⟩
        · exact ⟨rfl, rfl, hfalse⟩
    split
    · cases format with
      | nil => exact ⟨rfl, rfl, hfalse⟩
      | cons c format =>
        dsimp only
        split
        · exact ⟨rfl, rfl, hfalse⟩
        · exact ⟨rfl, rfl, hfalse⟩
    split
    · next ht =>
      subst ht
      exact ⟨rfl, rfl, hfalse⟩
    split
    · exact ⟨rfl, rfl, htrue⟩
    split
    · next hz =>
      subst hz
      exact ⟨rfl, rfl, hfalse⟩
    · next hl hh ht hj hz =>
      rw [if_neg (not_or.mpr ⟨ht, hz⟩)]
      exact ⟨rfl, rfl, hfalse⟩

theorem takes_integerText (signed : Bool) (base : Base) (uppercase : Bool) :
    Takes Arg.type [if d.flags.longLong then ArgType.longLong else .word] d.va Prod.fst
      (integerText signed base uppercase d) := by
  obtain ⟨flags, width, precision, format, va⟩ := d
  unfold integerText integerArgument
  dsimp only
  cases flags.longLong <;> rcases va with _ | ⟨v | v | p | value, va⟩
  all_goals first
    | exact Takes.one rfl rfl
    | exact Takes.refused nofun

theorem takes_specifierText (float : FloatText D) (spec : Specifier) :
    Takes Arg.type (specifierTypes d.flags.longLong spec) d.va Prod.fst
      (specifierText float spec d) := by
  cases spec with
  | integer signed base uppercase => exact takes_integerText d signed base uppercase
  | other c => exact Takes.nothing rfl
  | fixed uppercase | exponential adapt uppercase | char | string | pointer =>
    obtain ⟨flags, width, precision, format, va⟩ := d
    rcases va with _ | ⟨v | v | p | value, va⟩
    all_goals first
      | exact Takes.one rfl rfl
      | exact Takes.refused nofun

end Parts

/-! ## Directives and formats -/

/-- Up to its specifier a directive takes the arguments of its stars. -/
theorem takes_parseDirective (format : List UInt8) (va : List (Arg D)) :
    let width := widthTypes (parseFlags format {}).2
    let precision := precisionTypes width.2
    Takes Arg.type (width.1 ++ precision.1) va Directive.va (parseDirective format va) ∧
      ∀ d ∈ parseDirective format va, d.format = (lengthType precision.2).2 ∧
        d.flags.longLong = (lengthType precision.2).1 := by
  intro width precision
  have hflags := (parseFlags_flags format {}).2
  obtain ⟨hwidth, hwidthEnd⟩ := fields_parseWidth
    (⟨(parseFlags format {}).1, 0, 0, (parseFlags format {}).2, va⟩ : Directive D)
  constructor
  · refine hwidth.bind fun d hd => Takes.map ?_ fun d => (parseLength_spec d).1
    obtain ⟨hformat, -⟩ := hwidthEnd d hd
    show Takes Arg.type (precisionTypes (widthTypes (parseFlags format {}).2).2).1 _ _ _
    rw [← hformat]
    exact (fields_parsePrecision d).1
  · intro d hd
    obtain ⟨d₁, hd₁, hd⟩ := Option.bind_eq_some_iff.mp hd
    obtain ⟨d₂, hd₂, rfl⟩ := Option.map_eq_some_iff.mp hd
    obtain ⟨hformat₁, hlong₁⟩ := hwidthEnd d₁ hd₁
    obtain ⟨hformat₂, hlong₂⟩ := (fields_parsePrecision d₁).2 d₂ hd₂
    obtain ⟨-, hformat, hlong⟩ := parseLength_spec d₂
    have hrest : d₂.format = precision.2 := by
      rw [hformat₂, hformat₁]
    refine ⟨by rw [hformat, hrest], ?_⟩
    rw [hlong, hrest, hlong₂, hlong₁, hflags]
    exact Bool.false_or _

/-- A directive takes arguments of its types. -/
theorem takes_directiveText (float : FloatText D) (h : directiveTypes format = some (ts, rest))
    (va : List (Arg D)) :
    Takes Arg.type ts va (fun r => r.2.1) (directiveText float format va) ∧
      ∀ r ∈ directiveText float format va, r.1 = rest := by
  obtain ⟨htakes, hend⟩ := takes_parseDirective format va
  unfold directiveTypes at h
  dsimp only at h htakes hend
  generalize widthTypes (parseFlags format {}).2 = width at h htakes hend
  generalize precisionTypes width.2 = precision at h htakes hend
  cases hlength : (lengthType precision.2).2 with
  | nil =>
    rw [hlength] at h
    nomatch h
  | cons c format' =>
    rw [hlength] at h hend
    obtain ⟨rfl, rfl⟩ := Prod.mk.inj (Option.some.inj h)
    constructor
    · refine htakes.bind fun d hd => ?_
      obtain ⟨hformat, hlong⟩ := hend d hd
      rw [hformat, ← hlong]
      exact (takes_specifierText d float (specifier c)).map fun r => rfl
    · intro r hr
      obtain ⟨d, hd, hr⟩ := Option.bind_eq_some_iff.mp hr
      rw [(hend d hd).1] at hr
      obtain ⟨r', -, rfl⟩ := Option.map_eq_some_iff.mp hr
      rfl

/-- A directive without a specifier has no meaning. -/
theorem directiveText_eq_none (float : FloatText D) (h : directiveTypes format = none)
    (va : List (Arg D)) : directiveText float format va = none := by
  obtain ⟨-, hend⟩ := takes_parseDirective format va
  unfold directiveTypes at h
  dsimp only at h hend
  cases hlength : (lengthType (precisionTypes (widthTypes (parseFlags format {}).2).2).2).2 with
  | nil =>
    rw [hlength] at hend
    unfold directiveText
    cases hd : parseDirective format va with
    | none => rfl
    | some d =>
      rw [Option.bind_some, (hend d hd).1]
  | cons c format' =>
    rw [hlength] at h
    nomatch h

theorem length_atoi_le (str : List UInt8) (i : Nat) : (atoi str i).2.length ≤ str.length := by
  induction str generalizing i with
  | nil => exact Nat.le_refl 0
  | cons c str ih =>
    unfold atoi
    split
    · exact Nat.le_succ_of_le (ih _)
    · exact Nat.le_refl _

theorem length_parseFlags_le (format : List UInt8) (flags : Flags) :
    (parseFlags format flags).2.length ≤ format.length := by
  induction format generalizing flags with
  | nil => exact Nat.le_refl 0
  | cons c format ih =>
    unfold parseFlags
    repeat' split
    all_goals first
      | exact Nat.le_succ_of_le (ih _)
      | exact Nat.le_refl _

theorem length_widthTypes_le (format : List UInt8) :
    (widthTypes format).2.length ≤ format.length := by
  cases format with
  | nil => exact Nat.le_refl 0
  | cons c format =>
    unfold widthTypes
    dsimp only
    split
    · exact length_atoi_le (c :: format) 0
    split
    · exact Nat.le_succ _
    · exact Nat.le_refl _

theorem length_precisionTypes_le (format : List UInt8) :
    (precisionTypes format).2.length ≤ format.length := by
  cases format with
  | nil => exact Nat.le_refl 0
  | cons c format =>
    unfold precisionTypes
    dsimp only
    split
    · exact Nat.le_succ_of_le (length_widthTypes_le format)
    · exact Nat.le_refl _

theorem length_lengthType_le (format : List UInt8) :
    (lengthType format).2.length ≤ format.length := by
  rcases format with _ | ⟨c, _ | ⟨c', format⟩⟩
  all_goals
    unfold lengthType
    dsimp only
    repeat' split
    all_goals
      simp only [List.length_cons, List.length_nil]
      omega

/-- A directive is at least its specifier. -/
theorem length_lt_of_directiveTypes (h : directiveTypes format = some (ts, rest)) :
    rest.length < format.length := by
  unfold directiveTypes at h
  dsimp only at h
  have hflags := length_parseFlags_le format {}
  have hwidth := length_widthTypes_le (parseFlags format {}).2
  have hprec := length_precisionTypes_le (widthTypes (parseFlags format {}).2).2
  have hlen := length_lengthType_le
    (precisionTypes (widthTypes (parseFlags format {}).2).2).2
  cases hlength : (lengthType (precisionTypes (widthTypes (parseFlags format {}).2).2).2).2 with
  | nil =>
    rw [hlength] at h
    nomatch h
  | cons c format' =>
    rw [hlength] at h hlen
    obtain ⟨-, rfl⟩ := Prod.mk.inj (Option.some.inj h)
    rw [List.length_cons] at hlen
    omega

theorem Typed.char_iff {c : UInt8} (hc : c ≠ '%'.toUInt8) :
    Typed (c :: format) ts ↔ Typed format ts := by
  constructor
  · intro h
    cases h with
    | char _ h => exact h
    | directive _ _ => exact absurd rfl hc
  · exact Typed.char hc

/-- The types of the directive, and those of the rest. -/
theorem Typed.of_directive {ts' : List ArgType} (h : Typed ('%'.toUInt8 :: format) ts')
    (hd : directiveTypes format = some (ts, rest)) :
    ∃ ts'', ts' = ts ++ ts'' ∧ Typed rest ts'' := by
  cases h with
  | char hne _ => exact absurd rfl hne
  | directive hd' h =>
    obtain ⟨rfl, rfl⟩ := Prod.mk.inj (Option.some.inj (hd.symm.trans hd'))
    exact ⟨_, rfl, h⟩

/-- **Types are right**, as far as there is fuel for the characters. -/
theorem loopText_isSome_iff (float : FloatText D) {n : Nat} (hn : format.length ≤ n)
    (va : List (Arg D)) :
    (loopText float n format va).isSome ↔ ∃ ts, Typed format ts ∧ ts <+: va.map Arg.type := by
  induction n generalizing format va with
  | zero =>
    obtain rfl := List.length_eq_zero_iff.mp (Nat.le_zero.mp hn)
    exact iff_of_true rfl ⟨[], Typed.nil, List.nil_prefix⟩
  | succ n ih =>
    cases format with
    | nil => exact iff_of_true rfl ⟨[], Typed.nil, List.nil_prefix⟩
    | cons c format =>
      have hlen : format.length ≤ n := Nat.le_of_succ_le_succ hn
      rw [loopText]
      by_cases hc : c ≠ '%'.toUInt8
      · rw [if_pos hc, Option.isSome_map, ih hlen]
        exact exists_congr fun ts => and_congr_left' (Typed.char_iff hc).symm
      · obtain rfl := not_not.mp hc
        rw [if_neg hc]
        cases hd : directiveTypes format with
        | none =>
          rw [directiveText_eq_none float hd]
          refine iff_of_false Bool.false_ne_true ?_
          rintro ⟨ts, hts, -⟩
          cases hts with
          | char hne _ => exact hne rfl
          | directive hd' _ => cases hd.symm.trans hd'
        | some types =>
          obtain ⟨ts, rest⟩ := types
          obtain ⟨htakes, hend⟩ := takes_directiveText float hd va
          have hrest : rest.length ≤ n :=
            Nat.le_of_lt (Nat.lt_of_lt_of_le (length_lt_of_directiveTypes hd) hlen)
          -- the arguments that are left have the types, or the directive fails
          rcases htakes with ⟨hts, r, hr, hva⟩ | ⟨hts, hr⟩
          · have hleft : r.2.1 = va.drop ts.length := hva
            rw [hr, Option.bind_some, Option.isSome_map, hend r hr, ih hrest, hleft, List.map_drop]
            constructor
            · rintro ⟨ts'', h, hpre⟩
              exact ⟨ts ++ ts'', Typed.directive hd h,
                append_isPrefix_iff.mpr ⟨hts, hpre⟩⟩
            · rintro ⟨ts', h, hpre⟩
              obtain ⟨ts'', rfl, htyped⟩ := h.of_directive hd
              exact ⟨ts'', htyped, (append_isPrefix_iff.mp hpre).2⟩
          · rw [hr]
            refine iff_of_false Bool.false_ne_true ?_
            rintro ⟨ts', h, hpre⟩
            obtain ⟨ts'', rfl, -⟩ := h.of_directive hd
            exact hts (append_isPrefix_iff.mp hpre).1

/-- **The types of a format.** Whatever the output function does, a call of `_vsnprintf` has a
meaning exactly when the format is typed and the arguments begin with arguments of these types. -/
theorem vsnprintf_isSome_iff {β : Type} (float : FloatText D) (out : Out β) (maxlen : BitVec 32)
    (buffer : β) (format : CString) (va : List (Arg D)) :
    (vsnprintf float out maxlen buffer format va).isSome ↔
      ∃ ts, Typed format.bytes ts ∧ ts <+: va.map Arg.type := by
  rw [vsnprintf_eq, Option.isSome_map, text]
  exact loopText_isSome_iff float (Nat.le_refl _) va

end UnagiOs.Printf
