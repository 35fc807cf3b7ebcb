import UnagiOs.Theory.Slots
import UnagiOs.Theory.Words

/-!
# Helpers (util/kutil.c)

`uintptr_t` and `size_t` are 32 bits wide on the i686 target, so rounding up
wraps near the top of the address space. A `char *` is the memory from there on.
-/

namespace UnagiOs

/-! ## Strings -/

/-- `is_digit`. A `char` is signed, so the bytes from 128 on are no digits either way. -/
def isDigit (c : UInt8) : Bool := decide (48 ≤ c ∧ c ≤ 57)

/-- `to_digit`. -/
def toDigit (c : UInt8) : Int := c.toNat - 48

/-- The loop of `kstrnlen` with `n` rounds left. -/
def kstrnlenLoop (str : Nat → UInt8) (len : Nat) : Nat → Nat
  | 0 => len
  | n + 1 => if str len = 0 then len else kstrnlenLoop str (len + 1) n

/-- `kstrnlen`. -/
def kstrnlen (str : Nat → UInt8) (max : Nat) : Nat := kstrnlenLoop str 0 max

/-- `kmemcmp`. -/
def kmemcmp (s1 s2 : Nat → UInt8) : Nat → Int
  | 0 => 0
  | n + 1 =>
    if s1 0 ≠ s2 0 then (if s1 0 < s2 0 then -1 else 1)
    else kmemcmp (fun k => s1 (k + 1)) (fun k => s2 (k + 1)) n

/-- `kstrcmp`, for a first string in `n` bytes; `none` if it goes on behind them. -/
def kstrcmp (s1 s2 : Nat → UInt8) : Nat → Option Int
  | 0 => none
  | n + 1 =>
    if s1 0 ≠ 0 ∧ s1 0 = s2 0 then kstrcmp (fun k => s1 (k + 1)) (fun k => s2 (k + 1)) n
    else some ((s1 0).toNat - (s2 0).toNat)

/-- The memory that holds a string, with zeros after it. -/
def cstr (s : List UInt8) : Nat → UInt8 := fun k => s.getD k 0

theorem cstr_nil : cstr [] = fun _ => 0 := rfl

theorem setSlot_cstr (s : List UInt8) (c : UInt8) :
    setSlot (cstr s) s.length c = cstr (s ++ [c]) := by
  funext k
  rcases Nat.lt_trichotomy k s.length with hlt | heq | hgt
  · simp [setSlot, cstr, Nat.ne_of_lt hlt, List.getElem?_append_left hlt]
  · simp [setSlot, cstr, heq]
  · have hnone : (s ++ [c])[k]? = none := List.getElem?_eq_none (by simp; omega)
    simp [setSlot, cstr, Nat.ne_of_gt hgt, hnone, List.getElem?_eq_none (Nat.le_of_lt hgt)]

theorem kstrnlenLoop_cstr {s : List UInt8} (hs : 0 ∉ s) {len : Nat} (hlen : len ≤ s.length)
    (n : Nat) : kstrnlenLoop (cstr s) len n = min s.length (len + n) := by
  induction n generalizing len with
  | zero => rw [kstrnlenLoop, Nat.add_zero, Nat.min_eq_right hlen]
  | succ n ih =>
    rw [kstrnlenLoop]
    by_cases hend : len = s.length
    · have hzero : cstr s len = 0 := by simp [cstr, hend]
      rw [if_pos hzero]
      omega
    · have hlt : len < s.length := by omega
      have hbyte : cstr s len = s[len] := by simp [cstr, hlt]
      have hne : cstr s len ≠ 0 := fun h => hs (h ▸ hbyte ▸ List.getElem_mem hlt)
      rw [if_neg hne, ih hlt]
      omega

/-- The length of a string, bounded. -/
theorem kstrnlen_cstr {s : List UInt8} (hs : 0 ∉ s) (max : Nat) :
    kstrnlen (cstr s) max = min s.length max := by
  rw [kstrnlen, kstrnlenLoop_cstr hs (Nat.zero_le _), Nat.zero_add]

theorem kmemcmp_eq_zero (s1 s2 : Nat → UInt8) (n : Nat) :
    kmemcmp s1 s2 n = 0 ↔ ∀ k < n, s1 k = s2 k := by
  induction n generalizing s1 s2 with
  | zero => simp [kmemcmp]
  | succ n ih =>
    rw [kmemcmp]
    by_cases hfirst : s1 0 = s2 0
    · rw [if_neg (not_not_intro hfirst), ih]
      constructor
      · intro h k hk
        cases k with
        | zero => exact hfirst
        | succ k => exact h k (by omega)
      · exact fun h k hk => h (k + 1) (by omega)
    · rw [if_pos hfirst]
      refine iff_of_false ?_ fun h => hfirst (h 0 (Nat.succ_pos n))
      split <;> decide

/-- Strings that end inside of `n` bytes compare as equal iff they are. -/
theorem kstrcmp_cstr {s cmd : List UInt8} (hs : 0 ∉ s) (hcmd : 0 ∉ cmd) {n : Nat}
    (hn : s.length < n) :
    ∃ r, kstrcmp (cstr s) (cstr cmd) n = some r ∧ (r = 0 ↔ s = cmd) := by
  induction s generalizing cmd n with
  | nil =>
    obtain ⟨n, rfl⟩ : ∃ m, n = m + 1 := ⟨n - 1, by simp at hn; omega⟩
    rw [kstrcmp, if_neg fun h => h.1 rfl]
    refine ⟨_, rfl, ?_⟩
    cases cmd with
    | nil => simp [cstr]
    | cons d cmd =>
      have hd : d ≠ 0 := fun h => hcmd (h ▸ List.mem_cons_self)
      have hnat : d.toNat ≠ 0 := fun h => hd (UInt8.toNat_inj.mp h)
      simpa [cstr] using hnat
  | cons c s ih =>
    obtain ⟨n, rfl⟩ : ∃ m, n = m + 1 := ⟨n - 1, by simp at hn; omega⟩
    have hc : c ≠ 0 := fun h => hs (h ▸ List.mem_cons_self)
    rw [kstrcmp]
    by_cases heq : cstr (c :: s) 0 = cstr cmd 0
    · cases cmd with
      | nil => exact absurd heq hc
      | cons d cmd =>
        rw [if_pos ⟨hc, heq⟩]
        obtain ⟨r, hr, hzero⟩ :
            ∃ r, kstrcmp (cstr s) (cstr cmd) n = some r ∧ (r = 0 ↔ s = cmd) :=
          ih (fun h => hs (List.mem_cons_of_mem _ h)) (fun h => hcmd (List.mem_cons_of_mem _ h))
            (by simpa using hn)
        refine ⟨r, hr, ?_⟩
        have hcd : c = d := heq
        rw [hzero, hcd, List.cons.injEq, and_iff_right rfl]
    · rw [if_neg fun h => heq h.2]
      refine ⟨_, rfl, iff_of_false (fun h => heq ?_) fun h => heq (h ▸ rfl)⟩
      exact UInt8.toNat_inj.mp (by omega)

/-! ## Bits and alignment -/

/-- `isMaskBitsAllSet`. -/
def isMaskBitsAllSet (data mask : BitVec 32) : Bool := data &&& mask == mask

/-- `align_address_to_upper`. -/
def alignAddressToUpper (addr align : Nat) : Nat :=
  let residual := addr % align
  if residual = 0 then addr
  else u32 (addr + (align - residual))

/-- `align_address_to_lower`. -/
def alignAddressToLower (addr align : Nat) : Nat :=
  let residual := addr % align
  if residual = 0 then addr
  else addr - residual

/-- Rounding up that does not wrap gives an aligned address, at most one
`align` away. -/
theorem alignAddressToUpper_spec {addr align : Nat} (hal : 0 < align)
    (h : addr + align ≤ 2 ^ 32) :
    addr ≤ alignAddressToUpper addr align ∧ alignAddressToUpper addr align < addr + align ∧
      align ∣ alignAddressToUpper addr align := by
  have hlt : addr % align < align := Nat.mod_lt addr hal
  unfold alignAddressToUpper
  by_cases hr : addr % align = 0
  · simp only [hr, if_true]
    exact ⟨Nat.le_refl _, by omega, Nat.dvd_of_mod_eq_zero hr⟩
  · simp only [hr, if_false]
    rw [u32_of_lt (by omega)]
    refine ⟨by omega, by omega, ?_⟩
    have hdiv := Nat.div_add_mod addr align
    refine ⟨addr / align + 1, ?_⟩
    rw [Nat.mul_add, Nat.mul_one]
    omega

theorem alignAddressToLower_spec {addr align : Nat} (hal : 0 < align) :
    alignAddressToLower addr align ≤ addr ∧ addr < alignAddressToLower addr align + align ∧
      align ∣ alignAddressToLower addr align := by
  have hlt : addr % align < align := Nat.mod_lt addr hal
  unfold alignAddressToLower
  by_cases hr : addr % align = 0
  · simp only [hr, if_true]
    exact ⟨Nat.le_refl _, by omega, Nat.dvd_of_mod_eq_zero hr⟩
  · simp only [hr, if_false]
    refine ⟨by omega, by omega, ?_⟩
    have hdiv := Nat.div_add_mod addr align
    exact ⟨addr / align, by omega⟩

end UnagiOs
