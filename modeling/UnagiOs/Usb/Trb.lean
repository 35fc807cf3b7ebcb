/-!
# Transfer request blocks

A TRB is four 32-bit words (`trb.hpp`). The bit fields that the rings depend on
all lie in the last word: the cycle bit, the toggle bit of a Link TRB and the
type. `setCycle` is the store to the bit field `cycle_bit`; it leaves the other
fields alone, and `payload` is what remains of a TRB when its cycle bit is left
out of account.
-/

namespace UnagiOs.Xhci

/-- `union TRB`. -/
structure TRB where
  d0 : BitVec 32
  d1 : BitVec 32
  d2 : BitVec 32
  d3 : BitVec 32
  deriving DecidableEq, Repr

namespace TRB

/-- A TRB after `memset`. -/
def zero : TRB := ⟨0, 0, 0, 0⟩

def cycleBit (t : TRB) : Bool := t.d3.getLsbD 0

def toggleCycle (t : TRB) : Bool := t.d3.getLsbD 1

def trbType (t : TRB) : BitVec 6 := t.d3.extractLsb' 10 6

/-- `bits.cycle_bit = b` -/
def setCycle (t : TRB) (b : Bool) : TRB :=
  { t with d3 := if b then t.d3 ||| 1#32 else t.d3 &&& ~~~1#32 }

/-- `data[i]` -/
def word (t : TRB) : Fin 4 → BitVec 32
  | 0 => t.d0
  | 1 => t.d1
  | 2 => t.d2
  | 3 => t.d3

/-- `data[i] = v` -/
def setWord (t : TRB) (i : Fin 4) (v : BitVec 32) : TRB :=
  match i with
  | 0 => { t with d0 := v }
  | 1 => { t with d1 := v }
  | 2 => { t with d2 := v }
  | 3 => { t with d3 := v }

/-- `LinkTRB::Type` -/
def linkType : BitVec 6 := 6

def IsLink (t : TRB) : Prop := t.trbType = linkType
  deriving Decidable

/-- `LinkTRB link{buf_}; link.bits.toggle_cycle = true;` The low four bits of the
pointer are dropped, the other fields are zero. -/
def link (buf : BitVec 64) : TRB :=
  let pointer := buf >>> 4 <<< 4
  ⟨pointer.setWidth 32, (pointer >>> 32).setWidth 32, 0, 6#32 <<< 10 ||| 1#32 <<< 1⟩

/-- The TRB without its cycle bit. -/
def payload (t : TRB) : TRB := t.setCycle false

variable {t u : TRB} {b c : Bool}

theorem getLsbD_setCycle {i : Nat} :
    (t.setCycle b).d3.getLsbD i = if i = 0 then b else t.d3.getLsbD i := by
  cases b with
  | true =>
    rw [setCycle, if_pos rfl, BitVec.getLsbD_or, BitVec.getLsbD_one]
    by_cases hi : i = 0 <;> simp [hi]
  | false =>
    rw [setCycle, if_neg Bool.false_ne_true, BitVec.getLsbD_and, BitVec.getLsbD_not,
      BitVec.getLsbD_one]
    by_cases hi : i = 0
    · simp [hi]
    · have hlt : t.d3.getLsbD i = true → i < 32 := BitVec.lt_of_getLsbD
      simpa [hi] using hlt

@[simp] theorem cycleBit_setCycle : (t.setCycle b).cycleBit = b := by
  rw [cycleBit, getLsbD_setCycle, if_pos rfl]

@[simp] theorem toggleCycle_setCycle : (t.setCycle b).toggleCycle = t.toggleCycle := by
  rw [toggleCycle, getLsbD_setCycle, if_neg (by decide), toggleCycle]

@[simp] theorem trbType_setCycle : (t.setCycle b).trbType = t.trbType := by
  refine BitVec.eq_of_getLsbD_eq fun i hi => ?_
  rw [trbType, trbType, BitVec.getLsbD_extractLsb', BitVec.getLsbD_extractLsb',
    getLsbD_setCycle, if_neg (by omega)]

@[simp] theorem isLink_setCycle : (t.setCycle b).IsLink ↔ t.IsLink := by
  rw [IsLink, IsLink, trbType_setCycle]

theorem ext_d3 (h0 : t.d0 = u.d0) (h1 : t.d1 = u.d1) (h2 : t.d2 = u.d2)
    (h3 : ∀ i, t.d3.getLsbD i = u.d3.getLsbD i) : t = u := by
  cases t
  cases u
  simp only at h0 h1 h2
  rw [h0, h1, h2]
  exact congrArg _ (BitVec.eq_of_getLsbD_eq fun i _ => h3 i)

/-- Storing the bit that is there. -/
theorem setCycle_self : t.setCycle t.cycleBit = t := by
  refine ext_d3 rfl rfl rfl fun i => ?_
  rw [getLsbD_setCycle]
  split
  · next h => rw [h]; rfl
  · rfl

@[simp] theorem setCycle_setCycle : (t.setCycle b).setCycle c = t.setCycle c := by
  refine ext_d3 rfl rfl rfl fun i => ?_
  simp only [getLsbD_setCycle]
  split <;> rfl

@[simp] theorem payload_setCycle : (t.setCycle b).payload = t.payload := setCycle_setCycle

/-- The words other than the last one carry no bit field of the rings. -/
theorem cycleBit_setWord {i : Fin 4} {v : BitVec 32} (hi : i ≠ 3) :
    (t.setWord i v).cycleBit = t.cycleBit := by
  match i with
  | 0 => rfl
  | 1 => rfl
  | 2 => rfl
  | 3 => exact absurd rfl hi

theorem word_setWord {i j : Fin 4} {v : BitVec 32} :
    (t.setWord i v).word j = if j = i then v else t.word j := by
  match i, j with
  | 0, 0 | 0, 1 | 0, 2 | 0, 3 => rfl
  | 1, 0 | 1, 1 | 1, 2 | 1, 3 => rfl
  | 2, 0 | 2, 1 | 2, 2 | 2, 3 => rfl
  | 3, 0 | 3, 1 | 3, 2 | 3, 3 => rfl

theorem ext_word (h : ∀ i, t.word i = u.word i) : t = u :=
  ext_d3 (h 0) (h 1) (h 2) fun _ => congrArg (BitVec.getLsbD · _) (h 3)

theorem isLink_link (buf : BitVec 64) : (link buf).IsLink := by
  show (6#32 <<< 10 ||| 1#32 <<< 1).extractLsb' 10 6 = linkType
  decide

theorem toggleCycle_link (buf : BitVec 64) : (link buf).toggleCycle = true := by
  show (6#32 <<< 10 ||| 1#32 <<< 1).getLsbD 1 = true
  decide

end TRB

end UnagiOs.Xhci
