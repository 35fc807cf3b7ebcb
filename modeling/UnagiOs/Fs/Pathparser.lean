import UnagiOs.Theory.Split
import UnagiOs.Util.Kutil

/-!
# The path parser (fs/pathparser.c)

`path_parse` splits a path such as "0:/opt/bin" into the number of a drive and a chain of
parts. A string is the list of its bytes, without the NUL, and a pointer into it is what is
left of it. A chain of `PATH_PART`s is the list of them, so that `next` is the rest of the
list. Allocations are taken to succeed: `kzalloc` gives zeroed memory.

`path_get_path_part` looks for the end of a part, but takes the first byte as it is. So one
slash ends a part, and the next one becomes the first byte of the part after it: the parts are
the `pieces` of the path, not its `words`. `pathParse_iff`: the parts are the components of the
path iff no two slashes follow each other.
-/

namespace UnagiOs

open List

/-- `OS_PATH_MAX_LENGTH`. -/
def osPathMaxLength : Nat := 4096

/-- `EBADPATH`. -/
def ebadpath : Int := 4

def slash : UInt8 := 0x2f

def colon : UInt8 := 0x3a

/-- A NUL-terminated string. -/
structure CString where
  bytes : List UInt8
  nonzero : 0 ∉ bytes

/-- `kstrlen`: the bytes up to the NUL. -/
def kstrlen (s : CString) : Nat := s.bytes.length

/-- `PATH_PART`, without `next`. -/
structure PATH_PART where
  part : Nat → UInt8

/-- `PATH_ROOT`, with the chain that begins at `first`. -/
structure PATH_ROOT where
  driveNo : Int
  first : List PATH_PART

/-- `path_valid_format`. -/
def pathValidFormat (filename : List UInt8) : Bool :=
  let len := kstrnlen (cstr filename) osPathMaxLength
  decide (len ≥ 3) && isDigit (cstr filename 0) &&
    decide (kmemcmp (fun k => cstr filename (k + 1)) (cstr [colon, slash]) 2 = 0)

/-- `path_get_drive_number_by_path`: the number or an error, and where `*path` points. -/
def pathGetDriveNumberByPath (path : List UInt8) : Int × List UInt8 :=
  if ¬ pathValidFormat path then (-ebadpath, path)
  else (toDigit (cstr path 0), path.drop 3)

/-- `path_create_root`. -/
def pathCreateRoot (driverNumber : Int) : PATH_ROOT := ⟨driverNumber, []⟩

/-- The loop of `path_get_path_part` from round `i`, with `n` rounds left: the part, where `*path`
points, and whether it returns from inside. -/
def pathPartLoop : Nat → Nat → (Nat → UInt8) → List UInt8 → (Nat → UInt8) × List UInt8 × Bool
  | 0, _, pathPart, path => (pathPart, path, false)
  | _ + 1, _, pathPart, [] => (pathPart, [], false)
  | n + 1, i, pathPart, c :: path =>
    -- already found some part
    if c = slash ∧ kstrnlen pathPart osPathMaxLength ≠ 0 then (pathPart, path, true)
    else pathPartLoop n (i + 1) (setSlot pathPart i c) path

/-- `path_get_path_part`: the part or `NULL`, and where `*path` points. -/
def pathGetPathPart (path : List UInt8) : Option (Nat → UInt8) × List UInt8 :=
  let (pathPart, path, returned) := pathPartLoop osPathMaxLength 0 (fun _ => 0) path
  if returned then (some pathPart, path)
  else if kstrnlen pathPart osPathMaxLength = 0 then (none, path)
  else (some pathPart, path)

/-- `path_create_part`; its caller appends it to the chain. -/
def pathCreatePart (path : List UInt8) : Option PATH_PART × List UInt8 :=
  let (pathPartStr, path) := pathGetPathPart path
  (pathPartStr.map PATH_PART.mk, path)

/-- The loop `while (part)` of `path_parse`: the parts it appends. It is stuck (`none`) if it does
not end within `n` rounds. -/
def appendParts : Nat → List UInt8 → Option (List PATH_PART)
  | 0, _ => none
  | n + 1, path =>
    match pathCreatePart path with
    | (none, _) => some []
    | (some part, path) => (appendParts n path).map (part :: ·)

/-- `path_parse`, which does not look at `current_dir_path`. The outer `none` is a loop that does
not end within as many rounds as the path has bytes, and one more. -/
def pathParse (pathStr : CString) : Option (Option PATH_ROOT) :=
  if kstrlen pathStr > osPathMaxLength then some none
  else
    let (driveNumber, path) := pathGetDriveNumberByPath pathStr.bytes
    if driveNumber < 0 then some none
    else
      let pathRoot := pathCreateRoot driveNumber
      match pathCreatePart path with
      | (none, _) => some none
      | (some part, path) =>
        (appendParts (kstrlen pathStr + 1) path).map fun rest =>
          some { pathRoot with first := part :: rest }

/-! ## What a path says -/

/-- The string in the buffer of a part. -/
def PATH_PART.text (p : PATH_PART) : List UInt8 :=
  (List.range (kstrnlen p.part osPathMaxLength)).map p.part

/-- What the caller reads from the result. -/
def PATH_ROOT.read (r : PATH_ROOT) : Int × List (List UInt8) := (r.driveNo, r.first.map (·.text))

namespace CString

/-- The path starts with a digit and ":/". -/
def Absolute (s : CString) : Prop :=
  s.bytes[0]?.any isDigit = true ∧ s.bytes[1]? = some colon ∧ s.bytes[2]? = some slash

instance (s : CString) : Decidable s.Absolute := inferInstanceAs (Decidable (_ ∧ _ ∧ _))

/-- The non-empty components of the remainder. -/
def components (s : CString) : List (List UInt8) := words slash (s.bytes.drop 3)

/-- The drive of a path that is absolute and not too long, with its parts if it has any. -/
def withParts (s : CString) (parts : List (List UInt8)) : Option (Int × List (List UInt8)) :=
  if s.bytes.length ≤ osPathMaxLength ∧ s.Absolute ∧ parts ≠ [] then
    some (toDigit (s.bytes.headD 0), parts)
  else none

/-- What `path_parse` is for. -/
def meaning (s : CString) : Option (Int × List (List UInt8)) := s.withParts s.components

end CString

/-! ## One part -/

variable {path w : List UInt8} {c : UInt8}

theorem text_cstr (hw : 0 ∉ w) (hlen : w.length ≤ osPathMaxLength) :
    PATH_PART.text ⟨cstr w⟩ = w := by
  rw [PATH_PART.text, kstrnlen_cstr hw, Nat.min_eq_left hlen]
  refine ext_getElem (by simp) fun k _ hk => ?_
  simp [cstr, hk]

/-- No part of the path has a NUL. -/
theorem nonzero_word (hpath : 0 ∉ c :: path) : 0 ∉ c :: path.takeWhile (· ≠ slash) := by
  intro h
  rcases mem_cons.mp h with rfl | h
  · exact hpath mem_cons_self
  · exact hpath (mem_cons_of_mem c ((List.takeWhile_prefix _).subset h))

/-- Once it has a byte, the loop takes the bytes up to a slash and skips the slash. -/
theorem pathPartLoop_eq (hw : 0 ∉ w) (hne : w ≠ []) (hpath : 0 ∉ path) {n : Nat}
    (hn : path.length < n) :
    ∃ returned, pathPartLoop n w.length (cstr w) path =
      (cstr (w ++ path.takeWhile (· ≠ slash)), (path.dropWhile (· ≠ slash)).tail, returned) := by
  induction path generalizing w n with
  | nil =>
    obtain ⟨n, rfl⟩ := Nat.exists_eq_add_one_of_ne_zero (Nat.ne_zero_of_lt hn)
    exact ⟨false, by simp [pathPartLoop]⟩
  | cons c path ih =>
    obtain ⟨n, rfl⟩ := Nat.exists_eq_add_one_of_ne_zero (Nat.ne_zero_of_lt hn)
    rw [mem_cons, not_or] at hpath
    have hfound : kstrnlen (cstr w) osPathMaxLength ≠ 0 := by
      rw [kstrnlen_cstr hw, osPathMaxLength]
      have := length_pos_of_ne_nil hne
      omega
    by_cases hc : c = slash
    · refine ⟨true, ?_⟩
      rw [pathPartLoop, if_pos ⟨hc, hfound⟩]
      simp [hc]
    · obtain ⟨returned, hloop⟩ := ih (w := w ++ [c])
        (by rw [mem_append, mem_singleton, not_or]; exact ⟨hw, hpath.1⟩) (by simp)
        hpath.2 (Nat.lt_of_succ_lt_succ hn)
      refine ⟨returned, ?_⟩
      rw [pathPartLoop, if_neg fun h => hc h.1, setSlot_cstr]
      rw [length_append] at hloop
      simp only [length_singleton] at hloop
      rw [hloop]
      simp [hc]

theorem pathCreatePart_nil : pathCreatePart [] = (none, []) := rfl

/-- **A part** is the first byte of the path, whatever it is, and what follows up to a slash. -/
theorem pathCreatePart_cons (hpath : 0 ∉ c :: path) (hlen : path.length < 4095) :
    pathCreatePart (c :: path) =
      (some ⟨cstr (c :: path.takeWhile (· ≠ slash))⟩, (path.dropWhile (· ≠ slash)).tail) := by
  have hnone : ¬ (c = slash ∧ kstrnlen (cstr []) osPathMaxLength ≠ 0) := by
    rintro ⟨-, hlen⟩
    exact hlen (kstrnlen_cstr not_mem_nil osPathMaxLength)
  have hfirst : pathPartLoop osPathMaxLength 0 (cstr []) (c :: path) =
      pathPartLoop 4095 1 (cstr [c]) path := by
    rw [osPathMaxLength, pathPartLoop, if_neg hnone]
    exact congrArg (pathPartLoop 4095 1 · path) (setSlot_cstr [] c)
  have hbyte : 0 ∉ [c] := fun h => hpath (mem_singleton.mp h ▸ mem_cons_self)
  have hrest : 0 ∉ path := fun h => hpath (mem_cons_of_mem c h)
  obtain ⟨returned, hloop⟩ := pathPartLoop_eq hbyte (cons_ne_nil c []) hrest hlen
  have hsome : kstrnlen (cstr (c :: path.takeWhile (· ≠ slash))) osPathMaxLength ≠ 0 := by
    rw [kstrnlen_cstr (nonzero_word hpath), length_cons, osPathMaxLength]
    omega
  simp only [pathCreatePart, pathGetPathPart, ← cstr_nil, hfirst]
  rw [length_singleton] at hloop
  rw [hloop, singleton_append]
  cases returned with
  | true => rfl
  | false =>
    simp only [Bool.false_eq_true, if_false, if_neg hsome]
    rfl

/-! ## The chain of parts -/

/-- **The loop ends**, and the parts it appends are the pieces of the path. -/
theorem appendParts_eq (hpath : 0 ∉ path) (hlen : path.length ≤ 4095) {n : Nat}
    (hn : path.length < n) :
    ∃ parts, appendParts n path = some parts ∧ parts.map (·.text) = pieces slash path := by
  -- every round takes one byte of the path at least
  induction n generalizing path with
  | zero => cases hn
  | succ n ih =>
    cases path with
    | nil =>
      refine ⟨[], ?_, (pieces_nil slash).symm⟩
      rw [appendParts, pathCreatePart_nil]
    | cons c path =>
      rw [length_cons] at hlen hn
      have hsuffix : (path.dropWhile (· ≠ slash)).tail <:+ path :=
        (tail_suffix _).trans (dropWhile_suffix _)
      have hle := hsuffix.length_le
      obtain ⟨parts, heq, htexts⟩ := ih
        (fun h => hpath (mem_cons_of_mem c (hsuffix.subset h))) (by omega) (by omega)
      refine ⟨⟨cstr (c :: path.takeWhile (· ≠ slash))⟩ :: parts, ?_, ?_⟩
      · rw [appendParts, pathCreatePart_cons hpath (by omega)]
        simp only [heq, Option.map_some]
      · have hword : (c :: path.takeWhile (· ≠ slash)).length ≤ osPathMaxLength := by
          have := (List.takeWhile_prefix (· ≠ slash) (l := path)).length_le
          rw [length_cons, osPathMaxLength]
          omega
        rw [map_cons, htexts, pieces_cons, text_cstr (nonzero_word hpath) hword]

/-- A path that is absolute, byte by byte. -/
theorem CString.Absolute.bytes_eq {s : CString} (h : s.Absolute) :
    ∃ d, isDigit d = true ∧ s.bytes = d :: colon :: slash :: s.bytes.drop 3 := by
  obtain ⟨hdigit, hcolon, hslash⟩ := h
  rcases hb : s.bytes with - | ⟨d, - | ⟨c, - | ⟨c', rest⟩⟩⟩ <;> rw [hb] at hdigit hcolon hslash
  · cases hcolon
  · cases hcolon
  · cases hslash
  · cases hcolon
    cases hslash
    exact ⟨d, hdigit, rfl⟩

theorem pathValidFormat_iff (s : CString) : pathValidFormat s.bytes = true ↔ s.Absolute := by
  simp only [pathValidFormat, Bool.and_eq_true, decide_eq_true_eq, kmemcmp_eq_zero,
    kstrnlen_cstr s.nonzero]
  constructor
  · rintro ⟨⟨hlen, hdigit⟩, hrest⟩
    have h1 := hrest 0 (by decide)
    have h2 := hrest 1 (by decide)
    rcases hb : s.bytes with - | ⟨d, - | ⟨c, - | ⟨c', rest⟩⟩⟩ <;>
      rw [hb] at hlen hdigit h1 h2
    · simp at hlen
    · simp at hlen
    · simp at hlen
    · rw [CString.Absolute, hb]
      exact ⟨hdigit, congrArg some h1, congrArg some h2⟩
  · intro h
    obtain ⟨d, hdigit, hb⟩ := h.bytes_eq
    rw [hb]
    refine ⟨⟨by simp [osPathMaxLength], hdigit⟩, fun k hk => ?_⟩
    match k, hk with
    | 0, _ => rfl
    | 1, _ => rfl

section Parse

variable (s : CString)

theorem pathParse_bad (h : ¬ (s.bytes.length ≤ osPathMaxLength ∧ s.Absolute)) :
    pathParse s = some none := by
  unfold pathParse
  by_cases hlen : kstrlen s > osPathMaxLength
  · rw [if_pos hlen]
  · have hbad : ¬ pathValidFormat s.bytes = true :=
      (pathValidFormat_iff s).not.mpr fun habs => h ⟨Nat.not_lt.mp hlen, habs⟩
    rw [if_neg hlen, pathGetDriveNumberByPath, if_pos hbad]
    rfl

/-- The digit of an absolute path is the number of the drive, and no error. -/
theorem pathGetDriveNumberByPath_eq (h : s.Absolute) :
    pathGetDriveNumberByPath s.bytes = (toDigit (s.bytes.headD 0), s.bytes.drop 3) ∧
      ¬ toDigit (s.bytes.headD 0) < 0 := by
  obtain ⟨d, hdigit, hb⟩ := h.bytes_eq
  constructor
  · rw [pathGetDriveNumberByPath, if_neg (not_not_intro ((pathValidFormat_iff s).mpr h)), hb]
    rfl
  · rw [hb, headD_cons, toDigit]
    simp only [isDigit, decide_eq_true_eq, UInt8.le_iff_toNat_le] at hdigit
    have hlow : 48 ≤ d.toNat := hdigit.1
    omega

/-- **What `path_parse` returns**: the drive of an absolute path and its pieces. -/
theorem pathParse_eq : (pathParse s).map (Option.map PATH_ROOT.read) =
    some (s.withParts (pieces slash (s.bytes.drop 3))) := by
  by_cases h : s.bytes.length ≤ osPathMaxLength ∧ s.Absolute
  swap
  · rw [pathParse_bad s h, CString.withParts, if_neg fun hall => h ⟨hall.1, hall.2.1⟩]
    rfl
  obtain ⟨hlen, habs⟩ := h
  obtain ⟨hdrive, hnonneg⟩ := pathGetDriveNumberByPath_eq s habs
  have hbytes : 0 ∉ s.bytes.drop 3 := fun hz => s.nonzero (mem_of_mem_drop hz)
  have hshort : (s.bytes.drop 3).length = s.bytes.length - 3 := length_drop
  simp only [pathParse, hdrive, if_neg (Nat.not_lt.mpr hlen : ¬ kstrlen s > osPathMaxLength),
    if_neg hnonneg, CString.withParts, hlen, habs, true_and]
  cases hrest : s.bytes.drop 3 with
  | nil => simp [pathCreatePart_nil, pieces_nil]
  | cons c path =>
    rw [hrest] at hbytes hshort
    rw [osPathMaxLength] at hlen
    rw [length_cons] at hshort
    have hone := pathCreatePart_cons hbytes (by omega)
    -- the first part and the loop after it are one round and the rest of a longer loop
    obtain ⟨parts, hparts, htexts⟩ := appendParts_eq hbytes (by rw [length_cons]; omega)
      (n := kstrlen s + 2) (by rw [length_cons, kstrlen]; omega)
    rw [appendParts, hone] at hparts
    obtain ⟨rest, hloop, rfl⟩ := Option.map_eq_some_iff.mp hparts
    rw [hone]
    simp only [hloop, Option.map_some, PATH_ROOT.read, htexts, pathCreateRoot]
    rw [if_pos (by rw [pieces_cons]; exact cons_ne_nil _ _)]

/-- Where there is an answer, it tells the parts. -/
theorem CString.withParts_inj (h : s.bytes.length ≤ osPathMaxLength ∧ s.Absolute)
    {parts parts' : List (List UInt8)} :
    s.withParts parts = s.withParts parts' ↔ parts = parts' := by
  refine ⟨fun heq => ?_, fun heq => by rw [heq]⟩
  simp only [CString.withParts, h.1, h.2, true_and] at heq
  by_cases hp : parts = [] <;> by_cases hp' : parts' = [] <;> simp_all

theorem CString.Absolute.infix_iff {s : CString} (h : s.Absolute) :
    [slash, slash] <:+: s.bytes ↔ [slash, slash] <:+: slash :: s.bytes.drop 3 := by
  obtain ⟨d, hdigit, hb⟩ := h.bytes_eq
  have hd : d ≠ slash := by
    rintro rfl
    cases hdigit
  have hcolon : colon ≠ slash := by decide
  rw [hb, infix_cons_ne hd, infix_cons_ne hcolon]
  rfl

/-- **`path_parse` finds the drive and the components of a path iff** the path is rejected or no
two slashes follow each other in it: for every string. It returns in both cases. -/
theorem pathParse_iff :
    (pathParse s).map (Option.map PATH_ROOT.read) = some s.meaning ↔
      ¬ ((s.bytes.length ≤ osPathMaxLength ∧ s.Absolute) ∧ [slash, slash] <:+: s.bytes) := by
  rw [pathParse_eq, Option.some.injEq, CString.meaning]
  by_cases h : s.bytes.length ≤ osPathMaxLength ∧ s.Absolute
  · rw [s.withParts_inj h, CString.components, pieces_eq_words_iff, ← h.2.infix_iff]
    exact not_congr (and_iff_right h).symm
  · have hnone : ∀ parts, s.withParts parts = none := fun parts =>
      if_neg fun hall => h ⟨hall.1, hall.2.1⟩
    rw [hnone, hnone]
    exact iff_of_true rfl fun hall => h hall.1

end Parse

/-- "0:/a//b" has the parts "a" and "/b". -/
theorem pathParse_two_slashes :
    let s : CString := ⟨[0x30, 0x3a, 0x2f, 0x61, 0x2f, 0x2f, 0x62], by decide⟩
    (pathParse s).map (Option.map PATH_ROOT.read) = some (some (0, [[0x61], [0x2f, 0x62]])) ∧
      s.meaning = some (0, [[0x61], [0x62]]) := by
  decide +kernel

end UnagiOs
