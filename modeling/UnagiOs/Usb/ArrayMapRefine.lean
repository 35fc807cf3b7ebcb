import Mathlib.Data.Finset.Card
import Mathlib.Data.List.Infix
import Mathlib.Data.List.Induction
import UnagiOs.Usb.ArrayMap

/-!
# Maps in fixed arrays as maps (usb/arraymap.hpp)

What a map is asked to do is said by the operations alone: `Get` of a key answers by the last one on
it (`lastPut`), and a key is present if that was a `Put` (`presentKeys`).

- `Refines`: the array holds no key twice and answers so. There is a free slot iff fewer keys are
  present than there are slots, as the entries in use are the keys.
- `arrayMap_iff`: with no more keys than slots the array behaves as a map, also when keys are
  deleted later, iff no key is put that is present. A full array is the exception: it ignores the
  `Put`, which does not show if the value is the one that is there.
-/

namespace UnagiOs

open List

inductive MapOp (K V : Type) where
  | put (key : K) (value : V)
  | delete (key : K)

namespace MapOp

variable {K V : Type}

def key : MapOp K V → K
  | put key _ => key
  | delete key => key

/-- What the key leads to afterwards. -/
def value : MapOp K V → Option V
  | put _ value => some value
  | delete _ => none

end MapOp

section Spec

variable {K V : Type} [DecidableEq K]

/-- The value of the last `Put` of a key, if no `Delete` follows it. -/
def lastPut (ops : List (MapOp K V)) (k : K) : Option V :=
  (ops.reverse.find? fun op => op.key = k).bind MapOp.value

/-- The keys that are put and not deleted. -/
def presentKeys (ops : List (MapOp K V)) : Finset K :=
  (ops.map MapOp.key).toFinset.filter fun k => (lastPut ops k).isSome

theorem lastPut_concat (ops : List (MapOp K V)) (op : MapOp K V) (k : K) :
    lastPut (ops ++ [op]) k = if op.key = k then op.value else lastPut ops k := by
  rw [lastPut, reverse_append, reverse_singleton, singleton_append,
    find?_cons]
  by_cases hk : op.key = k
  · simp [hk]
  · simp [hk, lastPut]

theorem lastPut_put (ops : List (MapOp K V)) (key : K) (value : V) (k : K) :
    lastPut (ops ++ [.put key value]) k = if key = k then some value else lastPut ops k :=
  lastPut_concat ops (.put key value) k

theorem lastPut_delete (ops : List (MapOp K V)) (key k : K) :
    lastPut (ops ++ [.delete key]) k = if key = k then none else lastPut ops k :=
  lastPut_concat ops (.delete key) k

theorem mem_presentKeys {ops : List (MapOp K V)} {k : K} :
    k ∈ presentKeys ops ↔ lastPut ops k ≠ none := by
  rw [presentKeys, Finset.mem_filter, mem_toFinset, Option.isSome_iff_ne_none,
    and_iff_right_iff_imp]
  intro hlast
  -- an operation on the key was found
  obtain ⟨v, hv⟩ := Option.ne_none_iff_exists'.mp hlast
  obtain ⟨op, hop, -⟩ := Option.bind_eq_some_iff.mp hv
  have hkey : op.key = k := by simpa using find?_some hop
  exact mem_map.mpr ⟨op, mem_reverse.mp (mem_of_find?_eq_some hop), hkey⟩

end Spec

namespace ArrayMap

/-! ## The keys in use -/

section Table

variable {K V : Type} {key k : K} {value : V} {t : List (Option (K × V))}

/-- The keys of the slots in use. -/
def keysIn (t : List (Option (K × V))) : List K := t.filterMap fun e => e.map Prod.fst

theorem mem_keysIn : k ∈ keysIn t ↔ ∃ v, some (k, v) ∈ t := by
  rw [keysIn, mem_filterMap]
  constructor
  · rintro ⟨e, he, hk⟩
    obtain ⟨e, rfl, rfl⟩ := Option.map_eq_some_iff.mp hk
    exact ⟨e.2, he⟩
  · rintro ⟨v, hv⟩
    exact ⟨some (k, v), hv, rfl⟩

theorem length_keysIn_le : (keysIn t).length ≤ t.length := length_filterMap_le _ _

/-- There is a free slot iff not all of them are in use. -/
theorem none_mem_iff : none ∈ t ↔ (keysIn t).length < t.length := by
  induction t with
  | nil => simp [keysIn]
  | cons e t ih =>
    cases e with
    | none =>
      have hle := length_keysIn_le (t := t)
      refine iff_of_true mem_cons_self ?_
      show (keysIn t).length < t.length + 1
      omega
    | some e =>
      show none ∈ some e :: t ↔ (keysIn t).length + 1 < t.length + 1
      rw [mem_cons, or_iff_right (Option.some_ne_none e).symm, ih]
      omega

theorem keysIn_putIn (hroom : none ∈ t) :
    (keysIn (putIn key value t)).Perm (key :: keysIn t) := by
  induction t with
  | nil => cases hroom
  | cons e t ih =>
    cases e with
    | none => exact List.Perm.refl _
    | some e =>
      rw [mem_cons, or_iff_right (Option.some_ne_none e).symm] at hroom
      show (e.1 :: keysIn (putIn key value t)).Perm (key :: e.1 :: keysIn t)
      exact ((ih hroom).cons e.1).trans (List.Perm.swap key e.1 _)

variable [DecidableEq K]

theorem getIn_ne_none : getIn k t ≠ none ↔ k ∈ keysIn t := by
  rw [mem_keysIn, Ne, getIn_eq_none, not_forall_not]

theorem keysIn_deleteIn : keysIn (deleteIn key t) = (keysIn t).erase key := by
  induction t with
  | nil => rfl
  | cons e t ih =>
    cases e with
    | none => exact ih
    | some e =>
      show keysIn (if e.1 = key then none :: t else some e :: deleteIn key t) =
        (e.1 :: keysIn t).erase key
      by_cases hk : e.1 = key
      · rw [if_pos hk, hk, erase_cons_head]
        rfl
      · rw [if_neg hk, erase_cons_tail (by simpa using hk), ← ih]
        rfl

/-- A key that is not there is found where it is put. -/
theorem getIn_putIn_fresh (hkey : getIn key t = none) (hroom : none ∈ t) :
    getIn key (putIn key value t) = some value := by
  induction t with
  | nil => cases hroom
  | cons e t ih =>
    cases e with
    | none => exact if_pos rfl
    | some e =>
      rw [mem_cons, or_iff_right (Option.some_ne_none e).symm] at hroom
      rw [getIn] at hkey
      split at hkey
      · cases hkey
      · next hne =>
        rw [putIn, getIn, if_neg hne]
        exact ih hkey hroom

end Table

/-! ## One operation -/

section Run

variable {K V : Type} [DecidableEq K] {N : Nat} {m : ArrayMap K V N} {ops : List (MapOp K V)}
  {op : MapOp K V} {key : K}

def apply (m : ArrayMap K V N) : MapOp K V → ArrayMap K V N
  | .put key value => m.put key value
  | .delete key => m.delete key

/-- An array without entries, and then the operations. -/
def after (N : Nat) (ops : List (MapOp K V)) : ArrayMap K V N := ops.foldl apply empty

theorem after_concat (N : Nat) (ops : List (MapOp K V)) (op : MapOp K V) :
    after N (ops ++ [op]) = (after N ops).apply op := by
  rw [after, foldl_append, foldl_cons, foldl_nil, after]

/-- The array is the map that the operations made. -/
structure Refines (m : ArrayMap K V N) (ops : List (MapOp K V)) : Prop where
  nodup : (keysIn m.table).Nodup
  get : ∀ k, m.get k = lastPut ops k

theorem Refines.mem_keysIn (h : Refines m ops) {k : K} :
    k ∈ keysIn m.table ↔ lastPut ops k ≠ none := by
  rw [← h.get k]
  exact getIn_ne_none.symm

/-- Without keys held twice, as many slots are in use as keys are present. -/
theorem Refines.hasRoom_iff (h : Refines m ops) : m.HasRoom ↔ (presentKeys ops).card < N := by
  have hkeys : (keysIn m.table).toFinset = presentKeys ops := by
    ext k
    rw [mem_toFinset, h.mem_keysIn, mem_presentKeys]
  rw [← hkeys, toFinset_card_of_nodup h.nodup, HasRoom, none_mem_iff, m.size]

theorem refines_empty : Refines (empty : ArrayMap K V N) [] where
  nodup := by
    have hnone : keysIn (empty : ArrayMap K V N).table = [] := by
      refine eq_nil_iff_forall_not_mem.mpr fun k hk => ?_
      obtain ⟨v, hv⟩ := ArrayMap.mem_keysIn.mp hk
      exact not_holds_empty hv
    rw [hnone]
    exact nodup_nil
  get k := get_eq_none_iff.mpr fun _ => not_holds_empty

theorem Refines.delete (h : Refines m ops) (key : K) :
    Refines (m.delete key) (ops ++ [.delete key]) where
  nodup := by
    show (keysIn (deleteIn key m.table)).Nodup
    rw [keysIn_deleteIn]
    exact h.nodup.erase key
  get k := by
    rw [lastPut_delete]
    by_cases hk : key = k
    · rw [if_pos hk, ← hk]
      show getIn key (deleteIn key m.table) = none
      by_contra hne
      rw [← Ne, getIn_ne_none, keysIn_deleteIn] at hne
      exact h.nodup.not_mem_erase hne
    · rw [if_neg hk, get_delete_ne (Ne.symm hk), h.get k]

/-- A key that is not present gets a slot of its own. -/
theorem Refines.put_fresh (h : Refines m ops) (hkey : lastPut ops key = none) (hroom : m.HasRoom)
    (value : V) : Refines (m.put key value) (ops ++ [.put key value]) where
  nodup := by
    show (keysIn (putIn key value m.table)).Nodup
    rw [(keysIn_putIn hroom).nodup_iff, nodup_cons]
    exact ⟨fun hmem => h.mem_keysIn.mp hmem hkey, h.nodup⟩
  get k := by
    rw [lastPut_put]
    by_cases hk : key = k
    · rw [if_pos hk, ← hk]
      exact getIn_putIn_fresh ((h.get key).trans hkey) hroom
    · rw [if_neg hk, get_put_ne (Ne.symm hk), h.get k]

/-- A full array ignores a value that is there already. -/
theorem Refines.put_full (h : Refines m ops) {value : V} (hkey : lastPut ops key = some value)
    (hfull : ¬ m.HasRoom) :
    Refines (m.put key value) (ops ++ [.put key value]) where
  nodup := by
    rw [ArrayMap.put_full hfull]
    exact h.nodup
  get k := by
    rw [ArrayMap.put_full hfull, lastPut_put, h.get k]
    split
    · next hk =>
      rw [← hk]
      exact hkey
    · rfl

/-- The key that is put is not present, or it is with this value and all slots are in use. -/
def CleanPut (N : Nat) (ops : List (MapOp K V)) (op : MapOp K V) : Prop :=
  ∀ key value, op = .put key value →
    lastPut ops key = none ∨ (lastPut ops key = some value ∧ (presentKeys ops).card = N)

theorem card_presentKeys_put (hkey : lastPut ops key = none) (value : V) :
    (presentKeys (ops ++ [.put key value])).card = (presentKeys ops).card + 1 := by
  have hinsert : presentKeys (ops ++ [.put key value]) = insert key (presentKeys ops) := by
    ext k
    rw [Finset.mem_insert, mem_presentKeys, mem_presentKeys, lastPut_put]
    by_cases hk : key = k
    · simp [hk]
    · simp [hk, Ne.symm hk]
  rw [hinsert, Finset.card_insert_of_notMem fun hmem => mem_presentKeys.mp hmem hkey]

/-- **One operation.** -/
theorem Refines.step (h : Refines m ops) (hkeys : (presentKeys (ops ++ [op])).card ≤ N)
    (hclean : CleanPut N ops op) : Refines (m.apply op) (ops ++ [op]) := by
  cases op with
  | delete key => exact h.delete key
  | put key value =>
    rcases hclean key value rfl with hfresh | ⟨hsame, hcard⟩
    · rw [card_presentKeys_put hfresh] at hkeys
      exact h.put_fresh hfresh (h.hasRoom_iff.mpr hkeys) value
    · exact h.put_full hsame fun hroom => absurd (h.hasRoom_iff.mp hroom) (by omega)

theorem Refines.deletes (h : Refines m ops) (ks : List K) :
    Refines ((ks.map MapOp.delete).foldl apply m) (ops ++ ks.map MapOp.delete) := by
  induction ks generalizing m ops with
  | nil =>
    rw [map_nil, append_nil]
    exact h
  | cons k ks ih =>
    have hrest := ih (h.delete k)
    rw [append_assoc] at hrest
    exact hrest

/-- A key put twice is still there when it is deleted once. -/
theorem get_delete_put (hmem : key ∈ keysIn m.table) (hroom : m.HasRoom) (value : V) :
    ((m.put key value).delete key).get key ≠ none := by
  show getIn key (deleteIn key (putIn key value m.table)) ≠ none
  rw [getIn_ne_none, keysIn_deleteIn, ((keysIn_putIn hroom).erase key).mem_iff,
    erase_cons_head]
  exact hmem

/-- An operation that is answered well, also if its key is deleted next, puts no key that is present
while there is room. -/
theorem Refines.cleanPut (h : Refines m ops) (hkeys : (presentKeys ops).card ≤ N)
    (hget : ∀ k, (m.apply op).get k = lastPut (ops ++ [op]) k)
    (hdelete : ∀ k, ((m.apply op).delete k).get k = none) : CleanPut N ops op := by
  rintro key value rfl
  cases hkey : lastPut ops key with
  | none => exact .inl rfl
  | some w =>
    have hmem : key ∈ keysIn m.table := h.mem_keysIn.mpr (by rw [hkey]; exact Option.some_ne_none w)
    by_cases hroom : m.HasRoom
    · exact absurd (hdelete key) (get_delete_put hmem hroom value)
    · have hvalue : lastPut ops key = some value := by
        rw [← h.get key, ← ArrayMap.put_full hroom]
        exact (hget key).trans ((lastPut_put ops key value key).trans (if_pos rfl))
      have hcard := mt h.hasRoom_iff.mpr hroom
      exact .inr ⟨hkey.symm.trans hvalue, by omega⟩

/-! ## Any operations -/

/-- The array answers as a map does, after each operation and if keys are deleted then. -/
def BehavesAsMap (N : Nat) (ops : List (MapOp K V)) : Prop :=
  ∀ p, p <+: ops → ∀ (ks : List K) (k : K),
    (after N (p ++ ks.map MapOp.delete)).get k = lastPut (p ++ ks.map MapOp.delete) k

/-- All puts on the way are clean. -/
def CleanPuts (N : Nat) (ops : List (MapOp K V)) : Prop :=
  ∀ p op, p ++ [op] <+: ops → CleanPut N p op

theorem after_append (N : Nat) (ops ops' : List (MapOp K V)) :
    after N (ops ++ ops') = ops'.foldl apply (after N ops) := by
  rw [after, foldl_append, after]

theorem refines_after (hkeys : ∀ p, p <+: ops → (presentKeys p).card ≤ N)
    (hclean : CleanPuts N ops) : Refines (after N ops) ops := by
  induction ops using List.reverseRecOn with
  | nil => exact refines_empty
  | append_singleton ops op ih =>
    have hops : ops <+: ops ++ [op] := prefix_append _ _
    have hbefore : Refines (after N ops) ops :=
      ih (fun p hp => hkeys p (hp.trans hops)) fun p op' hp => hclean p op' (hp.trans hops)
    rw [after_concat]
    exact hbefore.step (hkeys _ (prefix_refl _)) (hclean ops op (prefix_refl _))

/-- A put that is not clean shows once the keys in front of it are deleted. -/
theorem cleanPuts_of_behaves (hkeys : ∀ p, p <+: ops → (presentKeys p).card ≤ N)
    (h : BehavesAsMap N ops) : CleanPuts N ops := by
  induction ops using List.reverseRecOn with
  | nil =>
    intro p op hp
    exact absurd (prefix_nil.mp hp) (by simp)
  | append_singleton ops op ih =>
    have hops : ops <+: ops ++ [op] := prefix_append _ _
    have hkeys' : ∀ p, p <+: ops → (presentKeys p).card ≤ N := fun p hp => hkeys p (hp.trans hops)
    have hbefore : CleanPuts N ops := ih hkeys' fun p hp => h p (hp.trans hops)
    intro p op' hp
    rcases prefix_concat_iff.mp hp with heq | hp
    · obtain ⟨rfl, hop⟩ := append_inj' heq rfl
      obtain rfl : op' = op := by simpa using hop
      have hself : p ++ [op'] <+: p ++ [op'] := prefix_refl _
      refine (refines_after hkeys' hbefore).cleanPut (hkeys' p (prefix_refl _)) ?_ ?_
      · intro k
        have hget := h _ hself [] k
        rwa [map_nil, append_nil, after_concat] at hget
      · intro k
        have hget := h _ hself [k] k
        rw [map_singleton, after_concat, after_concat, lastPut_delete, if_pos rfl] at hget
        exact hget
    · exact hbefore p op' hp

end Run

end ArrayMap

open ArrayMap in
/-- **An array as a map.** With no more keys present than there are slots at any time, `Get` answers
by the last operation on its key, also once keys are deleted, iff no key is put that is present;
unless its value is the same and all slots are in use. -/
theorem arrayMap_iff {K V : Type} [DecidableEq K] {N : Nat} (ops : List (MapOp K V))
    (hkeys : ∀ p, p <+: ops → (presentKeys p).card ≤ N) :
    BehavesAsMap N ops ↔
      ∀ p key value, p ++ [.put key value] <+: ops →
        lastPut p key = none ∨ (lastPut p key = some value ∧ (presentKeys p).card = N) := by
  constructor
  · intro h p key value hp
    exact cleanPuts_of_behaves hkeys h p (.put key value) hp key value rfl
  · intro h p hp ks k
    have hclean : CleanPuts N p := by
      rintro q op hq key value rfl
      exact h q key value (hq.trans hp)
    rw [after_append]
    exact ((refines_after (fun q hq => hkeys q (hq.trans hp)) hclean).deletes ks).get k

/-- A key that is put, deleted and put again, in an array with one slot. -/
theorem arrayMap_put_delete_put :
    (ArrayMap.after 1 [MapOp.put 1 10, .delete 1, .put 1 20]).get 1 = some 20 := by
  have hkeys : ∀ p, p <+: [MapOp.put 1 10, .delete 1, .put 1 20] → (presentKeys p).card ≤ 1 := by
    intro p hp
    have hcards : ∀ p ∈ [MapOp.put 1 10, .delete 1, .put 1 20].inits, (presentKeys p).card ≤ 1 := by
      decide
    exact hcards p ((mem_inits _ _).mpr hp)
  refine (arrayMap_iff _ hkeys).mpr ?_ _ (prefix_refl _) [] 1
  intro p key value hp
  have hfresh : ∀ p ∈ [MapOp.put 1 10, .delete 1, .put 1 20].inits, ∀ op ∈ p.getLast?,
      op.value ≠ none → lastPut p.dropLast op.key = none := by
    decide
  have hlast := hfresh _ ((mem_inits _ _).mpr hp) (.put key value) (by simp)
    (Option.some_ne_none value)
  rw [dropLast_concat] at hlast
  exact .inl hlast

/-- A key that is put twice has its first value, and the second one when it is deleted. -/
theorem arrayMap_put_put :
    (ArrayMap.after 16 [MapOp.put 1 10, .put 1 20]).get 1 = some 10 ∧
      lastPut [MapOp.put 1 10, .put 1 20] 1 = some 20 ∧
      (ArrayMap.after 16 [MapOp.put 1 10, .put 1 20, .delete 1]).get 1 = some 20 ∧
      lastPut [MapOp.put 1 10, .put 1 20, .delete 1] 1 = none := by
  decide

end UnagiOs
