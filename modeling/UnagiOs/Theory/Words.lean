import Mathlib.Algebra.GroupWithZero.Nat
import Mathlib.Algebra.Ring.Int.Defs
import UnagiOs.Theory.Ring

/-!
# Word memory

A flat memory of 32-bit words, keyed by byte address, and the arithmetic of
unsigned 32-bit machine words on natural numbers. A list node in such a memory
is the address of its `next` word, with the `prev` word right after it; nodes
of a set `D` are separate cells when none starts on another's `prev` word.
-/

namespace UnagiOs

/-- A natural number stored in an unsigned 32-bit word. -/
def u32 (n : Nat) : Nat := n % 2 ^ 32

/-- Unsigned 32-bit subtraction, which wraps. -/
def sub32 (a b : Nat) : Nat := (a + (2 ^ 32 - b % 2 ^ 32)) % 2 ^ 32

/-- An integer stored in a signed 32-bit word, which wraps. -/
def i32 (n : Int) : Int := n.bmod (2 ^ 32)

theorem u32_of_lt {n : Nat} (h : n < 2 ^ 32) : u32 n = n :=
  Nat.mod_eq_of_lt h

theorem sub32_of_le {a b : Nat} (h : b ≤ a) (ha : a < 2 ^ 32) : sub32 a b = a - b := by
  unfold sub32
  omega

theorem i32_of_bounds {n : Int} (hlow : -2 ^ 31 ≤ n) (hhigh : n < 2 ^ 31) : i32 n = n := by
  unfold i32
  rw [Int.bmod_def]
  omega

/-- A memory of 32-bit words, keyed by byte address. -/
abbrev Mem := Nat → Nat

namespace Mem

variable {w c : Nat} {D : Nat → Prop}

/-- Store `v` in the word at `a`. -/
def write (m : Mem) (a v : Nat) : Mem := fun w => if w = a then v else m w

@[simp] theorem write_self (m : Mem) (a v : Nat) : m.write a v a = v :=
  if_pos rfl

theorem write_other (m : Mem) {a : Nat} (v : Nat) (h : w ≠ a) : m.write a v w = m w :=
  if_neg h

/-- List nodes in memory: the `next` word at the node, the `prev` word after it. -/
def links : Links Mem Nat where
  next m d := m d
  prev m d := m (d + 4)
  setNext m d v := m.write d v
  setPrev m d v := m.write (d + 4) v

/-- `w` is not a link word of any node of `D`. -/
def OffLinks (D : Nat → Prop) (w : Nat) : Prop :=
  ∀ x, D x → w ≠ x ∧ w ≠ x + 4

theorem links_lawful (hD : ∀ x y, D x → D y → x ≠ y + 4) :
    links.Lawful D where
  next_setNext _ _ _ _ _ _ := rfl
  next_setPrev m x y v hx hy := write_other m v (hD y x hy hx)
  prev_setPrev m x y v _ _ := by
    show (if y + 4 = x + 4 then v else m (y + 4)) = if y = x then v else m (y + 4)
    simp
  prev_setNext m x y v hx hy := write_other m v (hD x y hx hy).symm

theorem setNext_off (hw : OffLinks D w) (m : Mem) (x v : Nat) (hx : D x) (h : m w = c) :
    links.setNext m x v w = c :=
  (write_other m v (hw x hx).1).trans h

theorem setPrev_off (hw : OffLinks D w) (m : Mem) (x v : Nat) (hx : D x) (h : m w = c) :
    links.setPrev m x v w = c :=
  (write_other m v (hw x hx).2).trans h

end Mem

end UnagiOs
