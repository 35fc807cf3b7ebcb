/-!
# Error codes of the C++ kernel

`Error::Code` of `error.hpp`. An `Error` object also carries the file and line
where it was made, which only the log reads; it is its code here.

A function that changes a state and returns an `Error`, and can be stuck, answers
`Option (σ × Error)`. `andThen` is `if (auto err = ...) return err;` before the rest of
the function, and `forEach` is a loop of such steps.
-/

namespace UnagiOs

/-- `Error::Code`. -/
inductive Error where
  | kSuccess
  | kFull
  | kEmpty
  | kNoEnoughMemory
  | kIndexOutOfRange
  | kHostControllerNotHalted
  | kInvalidSlotID
  | kPortNotConnected
  | kInvalidEndpointNumber
  | kTransferRingNotSet
  | kAlreadyAllocated
  | kNotImplemented
  | kInvalidDescriptor
  | kBufferTooSmall
  | kUnknownDevice
  | kNoCorrespondingSetupStage
  | kTransferFailed
  | kInvalidPhase
  | kUnknownXHCISpeedID
  | kNoWaiter
  | kEndpointNotInCharge
  | kNoPCIMSI
  deriving DecidableEq, Repr

/-- `WithError<T>`. -/
structure WithError (α : Type) where
  value : α
  error : Error
  deriving DecidableEq, Repr

section Steps

variable {σ α β : Type}

/-- `if (auto err = r) return err;` and then the rest. -/
def andThen (r : Option (σ × Error)) (rest : σ → Option (σ × Error)) : Option (σ × Error) :=
  r.bind fun out => if out.2 = .kSuccess then rest out.1 else some out

/-- `for (x : xs) { if (auto err = body(x)) return err; }` and `return kSuccess` behind it. -/
def forEach (body : α → σ → Option (σ × Error)) : List α → σ → Option (σ × Error)
  | [], s => some (s, .kSuccess)
  | x :: xs, s => andThen (body x s) (forEach body xs)

theorem andThen_assoc (r : Option (σ × Error)) (f g : σ → Option (σ × Error)) :
    andThen (andThen r f) g = andThen r fun s => andThen (f s) g := by
  cases r with
  | none => rfl
  | some out =>
    by_cases h : out.2 = .kSuccess
    · simp [andThen, h]
    · simp [andThen, h]

@[simp] theorem andThen_success (s : σ) (f : σ → Option (σ × Error)) :
    andThen (some (s, .kSuccess)) f = f s := rfl

theorem forEach_append (body : α → σ → Option (σ × Error)) (xs ys : List α) (s : σ) :
    forEach body (xs ++ ys) s = andThen (forEach body xs s) (forEach body ys) := by
  induction xs generalizing s with
  | nil => rfl
  | cons x xs ih =>
    rw [List.cons_append, forEach, forEach, andThen_assoc]
    exact congrArg _ (funext ih)

/-- Nested loops are one loop. -/
theorem forEach_flatMap (body : β → σ → Option (σ × Error)) (f : α → List β) (xs : List α)
    (s : σ) : forEach body (xs.flatMap f) s = forEach (fun x => forEach body (f x)) xs s := by
  induction xs generalizing s with
  | nil => rfl
  | cons x xs ih =>
    rw [List.flatMap_cons, forEach_append, forEach]
    exact congrArg _ (funext ih)

theorem forEach_map (body : β → σ → Option (σ × Error)) (f : α → β) (xs : List α) (s : σ) :
    forEach body (xs.map f) s = forEach (fun x => body (f x)) xs s := by
  induction xs generalizing s with
  | nil => rfl
  | cons x xs ih =>
    rw [List.map_cons, forEach, forEach]
    exact congrArg _ (funext ih)

/-- `if (skip(x)) continue;` -/
theorem forEach_filter (body : α → σ → Option (σ × Error)) (skip : α → Prop) [DecidablePred skip]
    (xs : List α) (s : σ) :
    forEach (fun x s => if skip x then some (s, .kSuccess) else body x s) xs s =
      forEach body (xs.filter fun x => ¬ skip x) s := by
  induction xs generalizing s with
  | nil => rfl
  | cons x xs ih =>
    rw [forEach]
    by_cases h : skip x
    · rw [if_pos h, andThen_success, ih, List.filter_cons_of_neg (by simp [h])]
    · rw [if_neg h, List.filter_cons_of_pos (by simp [h]), forEach]
      exact congrArg _ (funext ih)

/-- Steps that come back more often, followed by steps that do. -/
theorem andThen_mono {o o' : Option (σ × Error)} {f f' : σ → Option (σ × Error)} {r : σ × Error}
    (ho : ∀ r, o = some r → o' = some r) (hf : ∀ s r, f s = some r → f' s = some r)
    (hr : andThen o f = some r) : andThen o' f' = some r := by
  rw [andThen, Option.bind_eq_some_iff] at hr
  obtain ⟨out, hout, hrest⟩ := hr
  rw [ho out hout, andThen, Option.bind_some]
  split at hrest
  · next hok => rw [if_pos hok, hf _ _ hrest]
  · next hok => rw [if_neg hok, hrest]

/-- A body that comes back more often gives a loop that comes back more often. -/
theorem forEach_mono {body body' : α → σ → Option (σ × Error)}
    (h : ∀ x s r, body x s = some r → body' x s = some r) {xs : List α} {s : σ} {r : σ × Error}
    (hr : forEach body xs s = some r) : forEach body' xs s = some r := by
  induction xs generalizing s r with
  | nil => exact hr
  | cons x xs ih => exact andThen_mono (h x s) (fun _ _ => ih) hr

end Steps

end UnagiOs
