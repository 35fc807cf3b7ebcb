/-!
# Maps in fixed arrays (usb/arraymap.hpp)

`ArrayMap<K, V, N>` keeps its entries in an array of `N` slots and looks them up from the front.
`Put` takes the first free slot: it does not look whether the key is there already, and without a
free slot it does nothing. `Delete` frees the first slot with the key.

So an array can hold a key twice, and `Get` answers for the first. Where nothing is ever deleted
the slots in use are the first ones (`Compact`), and then what a key leads to stays
(`get_put_of_some`).
-/

namespace UnagiOs

open List

/-- `ArrayMap`: a slot is free or holds a key and its value. -/
structure ArrayMap (K V : Type) (N : Nat) where
  table : List (Option (K × V))
  size : table.length = N

namespace ArrayMap

section Table

variable {K V : Type} [DecidableEq K]

/-- The loop of `Get`. -/
def getIn (key : K) : List (Option (K × V)) → Option V
  | [] => none
  | none :: t => getIn key t
  | some e :: t => if e.1 = key then some e.2 else getIn key t

/-- The loop of `Put`. -/
def putIn (key : K) (value : V) : List (Option (K × V)) → List (Option (K × V))
  | [] => []
  | none :: t => some (key, value) :: t
  | some e :: t => some e :: putIn key value t

/-- The loop of `Delete`. -/
def deleteIn (key : K) : List (Option (K × V)) → List (Option (K × V))
  | [] => []
  | none :: t => none :: deleteIn key t
  | some e :: t => if e.1 = key then none :: t else some e :: deleteIn key t

variable {key k : K} {value v : V} {t : List (Option (K × V))}

omit [DecidableEq K] in
theorem length_putIn : (putIn key value t).length = t.length := by
  induction t with
  | nil => rfl
  | cons e t ih =>
    cases e with
    | none => rfl
    | some e => exact congrArg (· + 1) ih

theorem length_deleteIn : (deleteIn key t).length = t.length := by
  induction t with
  | nil => rfl
  | cons e t ih =>
    cases e with
    | none => exact congrArg (· + 1) ih
    | some e =>
      rw [deleteIn]
      split
      · rfl
      · exact congrArg (· + 1) ih

theorem getIn_eq_none : getIn key t = none ↔ ∀ v, some (key, v) ∉ t := by
  induction t with
  | nil => simp [getIn]
  | cons e t ih =>
    cases e with
    | none => simp [getIn, ih]
    | some e =>
      rw [getIn]
      split
      next heq =>
        refine iff_of_false (Option.some_ne_none _) fun hall => hall e.2 ?_
        rw [← heq]
        exact mem_cons_self
      next hne =>
        rw [ih]
        refine forall_congr' fun v => not_congr ?_
        rw [mem_cons, or_iff_right]
        intro heq
        cases heq
        exact hne rfl

theorem mem_of_getIn (h : getIn key t = some v) : some (key, v) ∈ t := by
  induction t with
  | nil => cases h
  | cons e t ih =>
    cases e with
    | none => exact mem_cons_of_mem _ (ih h)
    | some e =>
      rw [getIn] at h
      split at h
      next heq =>
        cases h
        rw [← heq]
        exact mem_cons_self
      next => exact mem_cons_of_mem _ (ih h)

omit [DecidableEq K] in
theorem mem_putIn : some (k, v) ∈ putIn key value t ↔
    some (k, v) ∈ t ∨ (none ∈ t ∧ k = key ∧ v = value) := by
  induction t with
  | nil => simp [putIn]
  | cons e t ih =>
    cases e with
    | none => simp [putIn, or_comm]
    | some e => simp [putIn, ih, or_assoc]

theorem getIn_putIn_ne (hne : k ≠ key) : getIn k (putIn key value t) = getIn k t := by
  induction t with
  | nil => rfl
  | cons e t ih =>
    cases e with
    | none => exact if_neg (Ne.symm hne)
    | some e => simp only [putIn, getIn, ih]

theorem getIn_deleteIn_ne (hne : k ≠ key) : getIn k (deleteIn key t) = getIn k t := by
  induction t with
  | nil => rfl
  | cons e t ih =>
    cases e with
    | none => exact ih
    | some e =>
      rw [deleteIn]
      split
      next heq => exact (if_neg (heq ▸ Ne.symm hne)).symm
      next => simp only [getIn, ih]

theorem mem_of_deleteIn (h : some (k, v) ∈ deleteIn key t) : some (k, v) ∈ t := by
  induction t with
  | nil => cases h
  | cons e t ih =>
    cases e with
    | none =>
      rcases mem_cons.mp h with h | h
      · cases h
      · exact mem_cons_of_mem _ (ih h)
    | some e =>
      rw [deleteIn] at h
      split at h
      · rcases mem_cons.mp h with h | h
        · cases h
        · exact mem_cons_of_mem _ h
      · rcases mem_cons.mp h with h | h
        · rw [h]
          exact mem_cons_self
        · exact mem_cons_of_mem _ (ih h)

omit [DecidableEq K] in
theorem putIn_full (hfull : none ∉ t) : putIn key value t = t := by
  induction t with
  | nil => rfl
  | cons e t ih =>
    rw [mem_cons, not_or] at hfull
    cases e with
    | none => exact absurd rfl hfull.1
    | some e => exact congrArg _ (ih hfull.2)

/-- With the slots in use in front, a key that is there hides a new entry for it. -/
theorem getIn_putIn_self (h : t.Pairwise fun a b => a = none → b = none) (hroom : none ∈ t) :
    getIn key (putIn key value t) = (getIn key t).or (some value) := by
  induction t with
  | nil => cases hroom
  | cons e t ih =>
    rw [pairwise_cons] at h
    cases e with
    | none =>
      -- everything behind the slot is free too
      have hfree : getIn key t = none := by
        refine getIn_eq_none.mpr fun v hv => ?_
        cases h.1 _ hv rfl
      simp [putIn, getIn, hfree]
    | some e =>
      rw [mem_cons, or_iff_right (Option.some_ne_none e).symm] at hroom
      rw [putIn, getIn, getIn]
      split
      · rfl
      · exact ih h.2 hroom

omit [DecidableEq K] in
theorem compact_putIn (h : t.Pairwise fun a b => a = none → b = none) :
    (putIn key value t).Pairwise fun a b => a = none → b = none := by
  induction t with
  | nil => exact List.Pairwise.nil
  | cons e t ih =>
    rw [pairwise_cons] at h
    cases e with
    | none => exact pairwise_cons.mpr ⟨fun _ _ hnone => absurd hnone (by simp), h.2⟩
    | some e => exact pairwise_cons.mpr ⟨fun _ _ hnone => absurd hnone (by simp), ih h.2⟩

end Table

variable {K V : Type} {N : Nat}

/-- A map without entries. -/
def empty : ArrayMap K V N := ⟨List.replicate N none, length_replicate⟩

def get [DecidableEq K] (m : ArrayMap K V N) (key : K) : Option V := getIn key m.table

def put (m : ArrayMap K V N) (key : K) (value : V) : ArrayMap K V N :=
  ⟨putIn key value m.table, length_putIn.trans m.size⟩

def delete [DecidableEq K] (m : ArrayMap K V N) (key : K) : ArrayMap K V N :=
  ⟨deleteIn key m.table, length_deleteIn.trans m.size⟩

/-- There is an entry. -/
def Holds (m : ArrayMap K V N) (key : K) (value : V) : Prop := some (key, value) ∈ m.table

/-- There is a free slot. -/
def HasRoom (m : ArrayMap K V N) : Prop := none ∈ m.table

instance [DecidableEq K] [DecidableEq V] (m : ArrayMap K V N) : Decidable m.HasRoom :=
  inferInstanceAs (Decidable (none ∈ m.table))

/-- The slots in use are the first ones. -/
def Compact (m : ArrayMap K V N) : Prop := m.table.Pairwise fun a b => a = none → b = none

variable {m : ArrayMap K V N} {key k : K} {value v : V}

theorem not_holds_empty : ¬ (empty : ArrayMap K V N).Holds k v := by
  intro h
  cases eq_of_mem_replicate h

theorem compact_empty : (empty : ArrayMap K V N).Compact :=
  pairwise_replicate.mpr (.inr fun h => h)

theorem Compact.put (h : m.Compact) : (m.put key value).Compact := compact_putIn h

theorem holds_put : (m.put key value).Holds k v ↔
    m.Holds k v ∨ (m.HasRoom ∧ k = key ∧ v = value) := mem_putIn

@[ext]
theorem ext_table {m m' : ArrayMap K V N} (h : m.table = m'.table) : m = m' := by
  cases m
  cases h
  rfl

theorem put_full (hfull : ¬ m.HasRoom) : m.put key value = m := ext_table (putIn_full hfull)

section Lookup

variable [DecidableEq K]

theorem get_eq_none_iff : m.get key = none ↔ ∀ v, ¬ m.Holds key v := getIn_eq_none

theorem holds_of_get (h : m.get key = some v) : m.Holds key v := mem_of_getIn h

theorem get_put_ne (hne : k ≠ key) : (m.put key value).get k = m.get k := getIn_putIn_ne hne

theorem get_delete_ne (hne : k ≠ key) : (m.delete key).get k = m.get k := getIn_deleteIn_ne hne

theorem holds_of_delete (h : (m.delete key).Holds k v) : m.Holds k v := mem_of_deleteIn h

theorem get_put_self (h : m.Compact) (hroom : m.HasRoom) :
    (m.put key value).get key = (m.get key).or (some value) :=
  getIn_putIn_self h hroom

/-- After a `Put` the key is there, unless it was not and there was no free slot. -/
theorem get_put_self_eq_none :
    (m.put key value).get key = none ↔ ¬ m.HasRoom ∧ m.get key = none := by
  rw [get_eq_none_iff, get_eq_none_iff]
  constructor
  · intro h
    refine ⟨fun hroom => h value (holds_put.mpr (.inr ⟨hroom, rfl, rfl⟩)), fun v hv => ?_⟩
    exact h v (holds_put.mpr (.inl hv))
  · rintro ⟨hfull, h⟩ v hv
    rcases holds_put.mp hv with hv | ⟨hroom, -⟩
    · exact h v hv
    · exact hfull hroom

/-- What a key leads to stays. -/
theorem get_put_of_some (h : m.Compact) (hget : m.get k = some v) :
    (m.put key value).get k = some v := by
  by_cases hk : k = key
  · subst hk
    by_cases hroom : m.HasRoom
    · rw [get_put_self h hroom, hget, Option.some_or]
    · rw [put_full hroom, hget]
  · rw [get_put_ne hk, hget]

theorem get_put_self_eq (h : m.Compact) :
    (m.put key value).get key = some value ↔
      m.get key = some value ∨ (m.get key = none ∧ m.HasRoom) := by
  by_cases hroom : m.HasRoom
  · rw [get_put_self h hroom]
    cases m.get key <;> simp [hroom]
  · rw [put_full hroom]
    simp [hroom]

end Lookup

end ArrayMap

end UnagiOs
