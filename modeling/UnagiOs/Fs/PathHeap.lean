import UnagiOs.Fs.Pathparser
import UnagiOs.Theory.NullChain

/-!
# The blocks of a path (fs/pathparser.c)

The parser again, with its allocations. A root, and a string and a node for each part, are blocks
of the heap; a node has the addresses of its string and of the next node. `pathParse_eq` connects
the two models: what lies in the blocks is what the parser on lists returns.

`path_free` collects the nodes of the chain in an array and frees them backwards. The loop that
collects leaves `i` at the number of parts, and the loop that frees starts there: the entry behind
the last part, which is null. And `path_parse` drops its root if there is no part.
`balanced_iff`: the blocks are balanced exactly for the paths for which none is allocated.
-/

namespace UnagiOs

open List

/-! ## The model -/

/-- Where `kzalloc` puts a block of a size, given the live ones. -/
structure Allocator where
  pick : List Nat → Nat → Nat
  fresh : ∀ live size, pick live size ∉ live
  nonnull : ∀ live size, pick live size ≠ 0

/-- `PATH_ROOT` in memory. -/
structure RootCell where
  driveNo : Int
  first : Nat

/-- `PATH_PART` in memory. -/
structure PartCell where
  part : Nat
  next : Nat

/-- The live blocks, and what lies in the blocks of each kind. -/
structure PathHeap where
  live : List Nat
  roots : Nat → RootCell
  parts : Nat → PartCell
  strings : Nat → Nat → UInt8

/-- What can go wrong in `path_free`. -/
inductive PathFault where
  /-- `pt_ptr[i]->part` of a null `pt_ptr[i]` -/
  | nullPart
  /-- `pt_ptr[i]` behind the array -/
  | outsideArray
  deriving DecidableEq, Repr

/-- `sizeof(PATH_ROOT)`. -/
def sizeofPathRoot : Nat := 8

/-- `sizeof(PATH_PART)`. -/
def sizeofPathPart : Nat := 8

namespace PathHeap

variable (A : Allocator) (h : PathHeap)

/-- `kzalloc`, but for the zeroes. -/
def kzalloc (size : Nat) : PathHeap × Nat :=
  ({ h with live := A.pick h.live size :: h.live }, A.pick h.live size)

/-- `kfree`. -/
def kfree (p : Nat) : PathHeap := { h with live := h.live.erase p }

/-- `path_create_root`. -/
def pathCreateRoot (driverNumber : Int) : PathHeap × Nat :=
  let (h, pr) := h.kzalloc A sizeofPathRoot
  ({ h with roots := setSlot h.roots pr ⟨driverNumber, 0⟩ }, pr)

/-- `path_get_path_part`. -/
def pathGetPathPart (path : List UInt8) : PathHeap × Nat × List UInt8 :=
  let (h, p) := h.kzalloc A osPathMaxLength
  let (pathPart, path, returned) := pathPartLoop osPathMaxLength 0 (fun _ => 0) path
  let h := { h with strings := setSlot h.strings p pathPart }
  if returned then (h, p, path)
  else if kstrnlen pathPart osPathMaxLength = 0 then (h.kfree p, 0, path)
  else (h, p, path)

/-- `prev->next = pp` -/
def setNext (prev pp : Nat) : PathHeap :=
  { h with parts := setSlot h.parts prev { h.parts prev with next := pp } }

/-- `path_create_part`. -/
def pathCreatePart (prev : Nat) (path : List UInt8) : PathHeap × Nat × List UInt8 :=
  let (h, pathPartStr, path) := h.pathGetPathPart A path
  if pathPartStr = 0 then (h, 0, path)
  else
    let (h, pp) := h.kzalloc A sizeofPathPart
    let h := { h with parts := setSlot h.parts pp ⟨pathPartStr, 0⟩ }
    if prev ≠ 0 then (h.setNext prev pp, pp, path)
    else (h, pp, path)

/-- The loop `while (part)` of `path_parse`, stuck if it does not end within `n` rounds. -/
def appendParts : Nat → PathHeap → Nat → List UInt8 → Option PathHeap
  | 0, _, _, _ => none
  | n + 1, h, part, path =>
    if part = 0 then some h
    else
      let (h, part, path) := h.pathCreatePart A part path
      appendParts n h part path

/-- What `path_parse` does once it has a root: the heap and the root, or 0. -/
def parseParts (n : Nat) (pathRoot : Nat) (path : List UInt8) : Option (PathHeap × Nat) :=
  let (h, part, path) := h.pathCreatePart A 0 path
  if part = 0 then some (h, 0)
  else
    let h := { h with roots := setSlot h.roots pathRoot { h.roots pathRoot with first := part } }
    (appendParts A n h part path).map fun h => (h, pathRoot)

/-- `path_parse`. -/
def pathParse (pathStr : CString) : Option (PathHeap × Nat) :=
  if kstrlen pathStr > osPathMaxLength then some (h, 0)
  else
    let (driveNumber, path) := pathGetDriveNumberByPath pathStr.bytes
    if driveNumber < 0 then some (h, 0)
    else
      let (h, pathRoot) := h.pathCreateRoot A driveNumber
      if pathRoot = 0 then some (h, 0)
      else h.parseParts A (kstrlen pathStr + 2) pathRoot path

/-- The loop of `path_free` that collects, from round `i` with `n` rounds left: `pt_ptr`, `i` and
`pt` after it. -/
def collectParts : Nat → Nat → Nat → (Nat → Nat) → (Nat → Nat) × Nat × Nat
  | 0, i, pt, ptPtr => (ptPtr, i, pt)
  | n + 1, i, pt, ptPtr =>
    if pt = 0 then (ptPtr, i, pt)
    else collectParts n (i + 1) (h.parts pt).next (setSlot ptPtr i pt)

/-- One round of the loop of `path_free` that frees. -/
def freePart (ptPtr : Nat → Nat) (i : Nat) : Except PathFault PathHeap :=
  if osPathMaxLength ≤ i then .error .outsideArray
  else if ptPtr i = 0 then .error .nullPart
  else .ok ((h.kfree (h.parts (ptPtr i)).part).kfree (ptPtr i))

/-- The loop of `path_free` that frees, from `i` down. -/
def freeParts (ptPtr : Nat → Nat) : Nat → PathHeap → Except PathFault PathHeap
  | 0, h => h.freePart ptPtr 0
  | i + 1, h => (h.freePart ptPtr (i + 1)).bind (freeParts ptPtr i)

/-- `path_free`, with what it returns. -/
def pathFree (root : Nat) : Except PathFault (PathHeap × Int) :=
  let (ptPtr, i, pt) := h.collectParts osPathMaxLength 0 (h.roots root).first (fun _ => 0)
  if pt ≠ 0 then .ok (h, (-ebadpath) % 2 ^ 32)
  else (freeParts ptPtr i h).map fun h => (h.kfree root, 0)

/-- The same blocks are live. -/
def SameBlocks (h h' : PathHeap) : Prop := ∀ p, p ∈ h'.live ↔ p ∈ h.live

/-- Parsing the path, and freeing what comes back if it is not null, leaves the blocks as they
were. -/
def Balanced (s : CString) : Prop :=
  ∃ h' root, h.pathParse A s = some (h', root) ∧ (root = 0 → h.SameBlocks h') ∧
    (root ≠ 0 → ∃ h'' ret, h'.pathFree root = .ok (h'', ret) ∧ h.SameBlocks h'')

/-! ## One part -/

section Part

variable {A h} {path path' : List UInt8} {str : Nat → UInt8} {part : PATH_PART} {h' : PathHeap}
  {prev pp first : Nat} {ps : List Nat} {parts : List PATH_PART}

/-- What `path_get_path_part` leaves: a block with the string, or a dead one. -/
theorem pathGetPathPart_eq (A : Allocator) (h : PathHeap) (path : List UInt8) :
    ∃ buf, h.pathGetPathPart A path =
      match UnagiOs.pathGetPathPart path with
      | (none, path') =>
        ({ h with strings := setSlot h.strings (A.pick h.live osPathMaxLength) buf }, 0, path')
      | (some str, path') =>
        ({ h with
            live := A.pick h.live osPathMaxLength :: h.live
            strings := setSlot h.strings (A.pick h.live osPathMaxLength) str },
          A.pick h.live osPathMaxLength, path') := by
  rcases hloop : pathPartLoop osPathMaxLength 0 (fun _ => 0) path with ⟨str, path', returned⟩
  refine ⟨str, ?_⟩
  simp only [pathGetPathPart, UnagiOs.pathGetPathPart, hloop, kzalloc]
  cases returned with
  | true => rfl
  | false =>
    simp only [Bool.false_eq_true, if_false]
    by_cases hempty : kstrnlen str osPathMaxLength = 0
    · simp only [hempty, if_true, kfree, erase_cons_head]
    · simp only [hempty, if_false]

/-- Live blocks and what lies in them are the same. -/
structure Unchanged (h' : PathHeap) : Prop where
  live : h'.live = h.live
  roots : h'.roots = h.roots
  parts : h'.parts = h.parts
  text : ∀ p ∈ h.live, h'.strings p = h.strings p

/-- At the end of the path there is no part, and no block is left. -/
theorem pathCreatePart_none (hpart : UnagiOs.pathCreatePart path = (none, path')) (A : Allocator)
    (h : PathHeap) (prev : Nat) :
    ∃ h', h.pathCreatePart A prev path = (h', 0, path') ∧ h.Unchanged h' := by
  obtain ⟨buf, heq⟩ := pathGetPathPart_eq A h path
  rcases hget : UnagiOs.pathGetPathPart path with ⟨str, rest⟩
  rw [UnagiOs.pathCreatePart, hget, Prod.mk.injEq, Option.map_eq_none_iff] at hpart
  obtain ⟨rfl, rfl⟩ := hpart
  rw [hget] at heq
  refine ⟨{ h with strings := setSlot h.strings (A.pick h.live osPathMaxLength) buf }, ?_,
    rfl, rfl, rfl, fun p hp => ?_⟩
  · rw [pathCreatePart, heq]
    rfl
  · have hne : p ≠ A.pick h.live osPathMaxLength := fun he => A.fresh _ _ (he ▸ hp)
    exact if_neg hne

/-- The links between the nodes. -/
def next (p : Nat) : Nat := (h.parts p).next

/-- The part that a node stands for. -/
def partAt (p : Nat) : PATH_PART := ⟨h.strings (h.parts p).part⟩

/-- A chain of nodes from `first` on, all in live blocks. -/
structure PartsAt (first : Nat) (ps : List Nat) (parts : List PATH_PART) : Prop where
  chain : NullChain h.next 0 first ps
  live : ∀ p ∈ ps, p ∈ h.live ∧ (h.parts p).part ∈ h.live
  parts : ps.map h.partAt = parts

/-- A new part: a string and a node in fresh blocks, linked to the node before it. -/
structure NewPart (h' : PathHeap) (prev pp : Nat) (part : PATH_PART) : Prop where
  nonnull : pp ≠ 0
  fresh : pp ∉ h.live
  live : pp ∈ h'.live ∧ (h'.parts pp).part ∈ h'.live
  part : h'.partAt pp = part
  last : h'.next pp = 0
  linked : prev ≠ 0 → h'.next prev = pp
  keeps : ∀ p ∈ h.live, p ∈ h'.live
  next : ∀ p ∈ h.live, (p = prev → prev = 0) → h'.next p = h.next p
  string : ∀ p ∈ h.live, (h'.parts p).part = (h.parts p).part
  text : ∀ p ∈ h.live, h'.strings p = h.strings p
  roots : h'.roots = h.roots

/-- The first part: there is no node before it. -/
theorem pathCreatePart_first (hpart : UnagiOs.pathCreatePart path = (some part, path'))
    (A : Allocator) (h : PathHeap) :
    ∃ h' pp, h.pathCreatePart A 0 path = (h', pp, path') ∧ h.NewPart h' 0 pp part ∧
      ∀ prev ≠ 0, h.pathCreatePart A prev path = (h'.setNext prev pp, pp, path') := by
  obtain ⟨buf, heq⟩ := pathGetPathPart_eq A h path
  rcases hget : UnagiOs.pathGetPathPart path with ⟨str, rest⟩
  rw [UnagiOs.pathCreatePart, hget, Prod.mk.injEq, Option.map_eq_some_iff] at hpart
  obtain ⟨⟨str, rfl, rfl⟩, rfl⟩ := hpart
  rw [hget] at heq
  -- the block of the string, and the block of the node
  generalize hs : A.pick h.live osPathMaxLength = s at heq
  have hs0 : s ≠ 0 := hs ▸ A.nonnull _ _
  have hsnew : s ∉ h.live := hs ▸ A.fresh _ _
  generalize hpp : A.pick (s :: h.live) sizeofPathPart = pp
  have hpp0 : pp ≠ 0 := hpp ▸ A.nonnull _ _
  have hppnew : pp ∉ s :: h.live := hpp ▸ A.fresh _ _
  have hnew : pp ∉ h.live := fun hp => hppnew (mem_cons_of_mem s hp)
  have hne : ∀ p ∈ h.live, p ≠ pp ∧ p ≠ s := fun p hp =>
    ⟨fun he => hnew (he ▸ hp), fun he => hsnew (he ▸ hp)⟩
  let h' : PathHeap := { h with
    live := pp :: s :: h.live
    strings := setSlot h.strings s str
    parts := setSlot h.parts pp ⟨s, 0⟩ }
  refine ⟨h', pp, ?_, ?_, fun prev hprev => ?_⟩
  · rw [pathCreatePart, heq]
    simp only [if_neg hs0, kzalloc, hpp]
    rfl
  · have hnode : h'.parts pp = ⟨s, 0⟩ := if_pos rfl
    refine
      { nonnull := hpp0
        fresh := hnew
        live := ⟨mem_cons_self, ?_⟩
        part := ?_
        last := congrArg PartCell.next hnode
        linked := fun h0 => absurd rfl h0
        keeps := fun p hp => mem_cons_of_mem _ (mem_cons_of_mem _ hp)
        next := fun p hp _ => congrArg PartCell.next (if_neg (hne p hp).1)
        string := fun p hp => congrArg PartCell.part (if_neg (hne p hp).1)
        text := fun p hp => if_neg (hne p hp).2
        roots := rfl }
    · rw [hnode]
      exact mem_cons_of_mem _ mem_cons_self
    · rw [partAt, hnode]
      exact congrArg PATH_PART.mk (if_pos rfl)
  · rw [pathCreatePart, heq]
    simp only [if_neg hs0, kzalloc, hpp, if_pos hprev]
    rfl

/-- Linking the new node to the last node of the chain. -/
theorem NewPart.setNext (hn : h.NewPart h' 0 pp part) (hlive : prev ∈ h.live) (hprev : prev ≠ 0) :
    h.NewPart (h'.setNext prev pp) prev pp part := by
  have hne : pp ≠ prev := fun he => hn.fresh (he ▸ hlive)
  have hother : ∀ p ≠ prev, (h'.setNext prev pp).parts p = h'.parts p := fun p hp => if_neg hp
  have hself : (h'.setNext prev pp).parts prev = ⟨(h'.parts prev).part, pp⟩ := if_pos rfl
  have hstring : ∀ p, ((h'.setNext prev pp).parts p).part = (h'.parts p).part := by
    intro p
    by_cases hp : p = prev
    · rw [hp, hself]
    · rw [hother p hp]
  refine
    { nonnull := hn.nonnull
      fresh := hn.fresh
      live := ⟨hn.live.1, hstring pp ▸ hn.live.2⟩
      part := ?_
      last := ?_
      linked := fun _ => congrArg PartCell.next hself
      keeps := hn.keeps
      next := fun p hp hpne => ?_
      string := fun p hp => (hstring p).trans (hn.string p hp)
      text := hn.text
      roots := hn.roots }
  · rw [← hn.part, partAt, hstring]
    rfl
  · rw [PathHeap.next, hother pp hne]
    exact hn.last
  · have hp' : p ≠ prev := fun he => hprev (hpne he)
    rw [PathHeap.next, hother p hp']
    exact hn.next p hp fun _ => rfl

/-! ## The chain -/

theorem NewPart.partAt_eq {p : Nat} (hn : h.NewPart h' prev pp part) (hp : p ∈ h.live)
    (hstr : (h.parts p).part ∈ h.live) : h'.partAt p = h.partAt p := by
  rw [partAt, partAt, hn.string p hp, hn.text _ hstr]

/-- The chain of one part. -/
theorem NewPart.single (hn : h.NewPart h' 0 pp part) : h'.PartsAt pp [pp] [part] where
  chain := ⟨rfl, hn.nonnull, hn.last⟩
  live := by
    intro p hp
    rw [mem_singleton.mp hp]
    exact hn.live
  parts := by rw [map_singleton, hn.part]

/-- The chain with one more part. -/
theorem PartsAt.snoc (hc : h.PartsAt first (ps ++ [prev]) parts) (hn : h.NewPart h' prev pp part) :
    h'.PartsAt first (ps ++ [prev, pp]) (parts ++ [part]) := by
  have hprev : prev ≠ 0 := hc.chain.ne_null prev (by simp)
  have hlive : ∀ p ∈ ps ++ [prev], p ∈ h.live ∧ (h.parts p).part ∈ h.live := hc.live
  have hnodup : (ps ++ [prev]).Nodup := hc.chain.nodup
  refine ⟨?_, fun p hp => ?_, ?_⟩
  · refine hc.chain.snoc hn.nonnull hn.last (hn.linked hprev) fun p hp => ?_
    refine hn.next p (hlive p (mem_append_left _ hp)).1 fun he => ?_
    rw [nodup_append] at hnodup
    exact absurd he (hnodup.2.2 p hp prev (by simp))
  · rcases mem_append.mp (by simpa using hp : p ∈ (ps ++ [prev]) ++ [pp]) with hp | hp
    · obtain ⟨hp, hstr⟩ := hlive p hp
      exact ⟨hn.keeps p hp, by rw [hn.string p hp]; exact hn.keeps _ hstr⟩
    · rw [mem_singleton.mp hp]
      exact hn.live
  · have hsplit : ps ++ [prev, pp] = (ps ++ [prev]) ++ [pp] := by simp
    rw [hsplit, map_append, map_singleton, hn.part, ← hc.parts]
    congr 1
    exact map_congr_left fun p hp => hn.partAt_eq (hlive p hp).1 (hlive p hp).2

theorem PartsAt.unchanged (hc : h.PartsAt first ps parts) (hsame : h.Unchanged h') :
    h'.PartsAt first ps parts := by
  refine ⟨hc.chain.congr fun p _ => ?_, fun p hp => ?_, ?_⟩
  · rw [next, next, hsame.parts]
  · rw [hsame.live, hsame.parts]
    exact hc.live p hp
  · rw [← hc.parts]
    refine map_congr_left fun p hp => ?_
    rw [partAt, partAt, hsame.parts, hsame.text _ (hc.live p hp).2]

/-- **The loop of `path_parse`** appends what the loop on lists does. -/
theorem appendParts_eq {rest : List PATH_PART} {n : Nat}
    (hrest : UnagiOs.appendParts n path = some rest) {last : Nat}
    (hc : h.PartsAt first (ps ++ [last]) parts) :
    ∃ h' ps', appendParts A (n + 1) h last path = some h' ∧
      h'.PartsAt first ps' (parts ++ rest) ∧ h'.roots = h.roots := by
  induction n generalizing h path last ps parts rest with
  | zero => cases hrest
  | succ n ih =>
    have hlast : last ≠ 0 := hc.chain.ne_null last (by simp)
    have hlive : last ∈ h.live := (hc.live last (by simp)).1
    rw [UnagiOs.appendParts] at hrest
    rcases hpart : UnagiOs.pathCreatePart path with ⟨part, path'⟩
    rw [hpart] at hrest
    rw [appendParts, if_neg hlast]
    cases part with
    | none =>
      obtain ⟨h', heq, hsame⟩ := pathCreatePart_none hpart A h last
      cases hrest
      rw [heq]
      exact ⟨h', _, if_pos rfl, by simpa using hc.unchanged hsame, hsame.roots⟩
    | some part =>
      obtain ⟨h', pp, -, hn, heq⟩ := pathCreatePart_first hpart A h
      obtain ⟨rest, hloop, rfl⟩ := Option.map_eq_some_iff.mp hrest
      have hc' := hc.snoc (hn.setNext hlive hlast)
      rw [append_cons] at hc'
      obtain ⟨h'', ps', hstep, hchain, hroots⟩ := ih hloop hc'
      rw [heq last hlast]
      refine ⟨h'', ps', hstep, ?_, hroots.trans (hn.setNext hlive hlast).roots⟩
      simpa using hchain

end Part

/-! ## Parsing -/

section Parse

variable (s : CString) {path path' : List UInt8}

/-- A path that is rejected takes no block. -/
theorem pathParse_rejected (hbad : ¬ (s.bytes.length ≤ osPathMaxLength ∧ s.Absolute)) :
    h.pathParse A s = some (h, 0) := by
  unfold pathParse
  by_cases hlen : kstrlen s > osPathMaxLength
  · rw [if_pos hlen]
  · have hfmt : ¬ pathValidFormat s.bytes = true :=
      (pathValidFormat_iff s).not.mpr fun habs => hbad ⟨Nat.not_lt.mp hlen, habs⟩
    rw [if_neg hlen, pathGetDriveNumberByPath, if_pos hfmt]
    rfl

variable {s}

/-- A path that is accepted takes a block for the root, whatever follows. -/
theorem pathParse_accepted (hlen : s.bytes.length ≤ osPathMaxLength) (habs : s.Absolute) :
    h.pathParse A s =
      let (h₁, root) := h.pathCreateRoot A (toDigit (s.bytes.headD 0))
      h₁.parseParts A (kstrlen s + 2) root (s.bytes.drop 3) := by
  obtain ⟨hdrive, hnonneg⟩ := pathGetDriveNumberByPath_eq s habs
  have hroot : A.pick h.live sizeofPathRoot ≠ 0 := A.nonnull _ _
  simp only [pathParse, hdrive, if_neg (Nat.not_lt.mpr hlen : ¬ kstrlen s > osPathMaxLength),
    if_neg hnonneg, pathCreateRoot, kzalloc, if_neg hroot]

/-- Without a part the root is lost. -/
theorem parseParts_none (hpart : UnagiOs.pathCreatePart path = (none, path')) (n root : Nat) :
    ∃ h', h.parseParts A n root path = some (h', 0) ∧ h'.live = h.live := by
  obtain ⟨h', heq, hsame⟩ := pathCreatePart_none hpart A h 0
  refine ⟨h', ?_, hsame.live⟩
  rw [parseParts, heq]
  exact if_pos rfl

/-- With parts, the root leads to all of them. -/
theorem parseParts_some {part : PATH_PART} {rest : List PATH_PART}
    (hpart : UnagiOs.pathCreatePart path = (some part, path')) {n : Nat}
    (hrest : UnagiOs.appendParts n path' = some rest) (root : Nat) :
    ∃ h' ps, h.parseParts A (n + 1) root path = some (h', root) ∧
      (h'.roots root).driveNo = (h.roots root).driveNo ∧
      h'.PartsAt (h'.roots root).first ps (part :: rest) := by
  obtain ⟨h₁, pp, heq, hn, -⟩ := pathCreatePart_first hpart A h
  let h₂ := { h₁ with roots := setSlot h₁.roots root { h₁.roots root with first := pp } }
  have hroot : h₂.roots root = { h₁.roots root with first := pp } := if_pos rfl
  have hsingle : h₂.PartsAt pp ([] ++ [pp]) [part] := ⟨hn.single.chain, hn.single.live,
    hn.single.parts⟩
  obtain ⟨h', ps, hloop, hchain, hroots⟩ := appendParts_eq (A := A) hrest hsingle
  refine ⟨h', ps, ?_, ?_, ?_⟩
  · rw [parseParts, heq]
    simp only [if_neg hn.nonnull]
    rw [hloop]
    rfl
  · rw [hroots, hroot, hn.roots]
  · rw [hroots, hroot]
    exact hchain

/-- **The two models agree.** A path that is accepted takes a root. Where the parser on lists
answers with parts, the root leads to them in the heap; where it answers with none, the root is
left behind. -/
theorem pathParse_eq (hlen : s.bytes.length ≤ osPathMaxLength) (habs : s.Absolute) :
    (∃ h' root, h.pathParse A s = some (h', 0) ∧ UnagiOs.pathParse s = some none ∧
        root ∉ h.live ∧ root ∈ h'.live) ∨
      ∃ h' root r ps, h.pathParse A s = some (h', root) ∧ root ≠ 0 ∧
        UnagiOs.pathParse s = some (some r) ∧ (h'.roots root).driveNo = r.driveNo ∧
        h'.PartsAt (h'.roots root).first ps r.first := by
  obtain ⟨hdrive, hnonneg⟩ := pathGetDriveNumberByPath_eq s habs
  rw [pathParse_accepted A h hlen habs]
  have hshort : ¬ kstrlen s > osPathMaxLength := Nat.not_lt.mpr hlen
  rcases hpart : UnagiOs.pathCreatePart (s.bytes.drop 3) with ⟨part, path⟩
  generalize hroot : h.pathCreateRoot A (toDigit (s.bytes.headD 0)) = r₁
  obtain ⟨h₁, root⟩ := r₁
  obtain ⟨rfl, rfl⟩ := Prod.mk.inj hroot
  cases part with
  -- an empty path: the root stays allocated and is not returned
  | none =>
    left
    have hlist : UnagiOs.pathParse s = some none := by
      simp only [UnagiOs.pathParse, hdrive, if_neg hnonneg, if_neg hshort, hpart]
    obtain ⟨h', heq, hlive⟩ := parseParts_none A
      (h.pathCreateRoot A (toDigit (s.bytes.headD 0))).1 hpart (kstrlen s + 2)
      (A.pick h.live sizeofPathRoot)
    refine ⟨h', A.pick h.live sizeofPathRoot, heq, hlist, A.fresh _ _, ?_⟩
    rw [hlive]
    exact mem_cons_self
  | some part =>
    right
    have hlist : UnagiOs.pathParse s = (UnagiOs.appendParts (kstrlen s + 1) path).map fun rest =>
        some ⟨toDigit (s.bytes.headD 0), part :: rest⟩ := by
      simp only [UnagiOs.pathParse, hdrive, if_neg hnonneg, if_neg hshort, hpart]
      rfl
    have hsome := UnagiOs.pathParse_eq s
    rw [hlist] at hsome
    obtain ⟨rest, hrest⟩ : ∃ rest, UnagiOs.appendParts (kstrlen s + 1) path = some rest := by
      cases hloop : UnagiOs.appendParts (kstrlen s + 1) path with
      | none => simp [hloop] at hsome
      | some rest => exact ⟨rest, rfl⟩
    obtain ⟨h', ps, heq, hdriveNo, hchain⟩ := parseParts_some A
      (h.pathCreateRoot A (toDigit (s.bytes.headD 0))).1 hpart hrest
      (A.pick h.live sizeofPathRoot)
    refine ⟨h', A.pick h.live sizeofPathRoot, ⟨toDigit (s.bytes.headD 0), part :: rest⟩, ps, heq,
      A.nonnull _ _, ?_, ?_, hchain⟩
    · simp only [hlist, hrest, Option.map_some]
    · rw [hdriveNo]
      exact congrArg RootCell.driveNo (if_pos rfl)

end Parse

/-! ## Freeing -/

section Free

variable {h} {ps : List Nat}

/-- The loop that collects stops at the number of parts, and does not touch what is behind. -/
theorem collectParts_eq {pt : Nat} (hc : NullChain h.next 0 pt ps) {n : Nat} (hn : ps.length ≤ n)
    (i : Nat) (ptPtr : Nat → Nat) :
    ∃ ptPtr', h.collectParts n i pt ptPtr = (ptPtr', i + ps.length, 0) ∧
      ∀ j, i + ps.length ≤ j → ptPtr' j = ptPtr j := by
  induction ps generalizing pt n i ptPtr with
  | nil =>
    have hpt : pt = 0 := hc
    refine ⟨ptPtr, ?_, fun j _ => rfl⟩
    cases n with
    | zero => rw [collectParts, hpt]; rfl
    | succ n => rw [collectParts, if_pos hpt, hpt]; rfl
  | cons p ps ih =>
    obtain ⟨rfl, hne, hrest⟩ := hc
    cases n with
    | zero => cases hn
    | succ n =>
      obtain ⟨ptPtr', heq, hkeep⟩ := ih hrest (Nat.le_of_succ_le_succ hn) (i + 1)
        (setSlot ptPtr i pt)
      refine ⟨ptPtr', ?_, fun j hj => ?_⟩
      · rw [collectParts, if_neg hne]
        refine heq.trans ?_
        rw [length_cons]
        congr 2
        omega
      · rw [length_cons] at hj
        rw [hkeep j (by omega)]
        exact if_neg (by omega)

/-- **`path_free` starts at the entry behind the last part, which is null.** -/
theorem pathFree_nullPart {root : Nat} {parts : List PATH_PART}
    (hc : h.PartsAt (h.roots root).first ps parts) (hlen : parts.length < osPathMaxLength) :
    h.pathFree root = .error .nullPart := by
  have hps : ps.length = parts.length := by rw [← hc.parts, length_map]
  obtain ⟨ptPtr, heq, hnull⟩ := collectParts_eq hc.chain (n := osPathMaxLength) (by omega) 0
    (fun _ => 0)
  have hfault : ∀ h : PathHeap, h.freePart ptPtr (0 + ps.length) = .error .nullPart := by
    intro h
    rw [freePart, if_neg (by omega), if_pos (hnull _ (Nat.le_refl _))]
  have hloop : freeParts ptPtr (0 + ps.length) h = .error .nullPart := by
    cases hk : 0 + ps.length with
    | zero =>
      rw [hk] at hfault
      exact hfault h
    | succ k =>
      rw [hk] at hfault
      rw [freeParts, hfault h]
      rfl
  simp only [pathFree, heq]
  rw [if_neg (not_not_intro rfl), hloop]
  rfl

/-- There are fewer parts than the array has entries. -/
theorem length_parts_lt {s : CString} (hlen : s.bytes.length ≤ osPathMaxLength) {r : PATH_ROOT}
    (hparse : UnagiOs.pathParse s = some (some r)) : r.first.length < osPathMaxLength := by
  have heq := UnagiOs.pathParse_eq s
  rw [hparse, CString.withParts] at heq
  split at heq
  · next hgood =>
    have hread : r.read = (toDigit (s.bytes.headD 0), pieces slash (s.bytes.drop 3)) := by
      simpa using heq
    have htexts : r.first.map (·.text) = pieces slash (s.bytes.drop 3) := congrArg Prod.snd hread
    have hpieces := length_pieces_le slash (s.bytes.drop 3)
    rw [← htexts, length_map, length_drop] at hpieces
    obtain ⟨d, -, hb⟩ := hgood.2.1.bytes_eq
    have hpos := congrArg List.length hb
    simp only [length_cons] at hpos
    omega
  · simp at heq

/-- **The blocks are balanced iff none is taken**: the path is longer than `OS_PATH_MAX_LENGTH` or
does not start with a digit and ":/". For every other path `path_free` follows a null part, or
there is no part and the root is never freed. -/
theorem balanced_iff (A : Allocator) (h : PathHeap) (s : CString) :
    h.Balanced A s ↔ ¬ (s.bytes.length ≤ osPathMaxLength ∧ s.Absolute) := by
  constructor
  · rintro ⟨h', root, hparse, hnull, hfree⟩ ⟨hlen, habs⟩
    rcases pathParse_eq A h hlen habs with
      ⟨h₁, lost, heq, -, hnew, hlive⟩ | ⟨h₁, root₁, r, ps, heq, hne, hr, -, hchain⟩
    · cases heq.symm.trans hparse
      exact hnew ((hnull rfl lost).mp hlive)
    · cases heq.symm.trans hparse
      obtain ⟨h'', ret, hok, -⟩ := hfree hne
      rw [pathFree_nullPart hchain (length_parts_lt hlen hr)] at hok
      cases hok
  · intro hbad
    refine ⟨h, 0, pathParse_rejected A h s hbad, fun _ p => Iff.rfl, fun h0 => absurd rfl h0⟩

end Free

end PathHeap

/-- Blocks from low to high. -/
def Allocator.ascending : Allocator where
  pick live _ := live.foldr max 0 + 1
  fresh live _ hmem := by
    have hle : ∀ l : List Nat, ∀ p ∈ l, p ≤ l.foldr max 0 := by
      intro l
      induction l with
      | nil => simp
      | cons q l ih =>
        intro p hp
        rw [foldr_cons]
        rcases mem_cons.mp hp with rfl | hp
        · exact Nat.le_max_left _ _
        · exact Nat.le_trans (ih p hp) (Nat.le_max_right _ _)
    exact Nat.not_succ_le_self _ (hle live _ hmem)
  nonnull _ _ := Nat.succ_ne_zero _

/-- A heap without blocks. -/
def PathHeap.empty : PathHeap := ⟨[], fun _ => ⟨0, 0⟩, fun _ => ⟨0, 0⟩, fun _ _ => 0⟩

/-- "0:/a" has one part, and freeing it follows a null part. "0:/" has none, and a block is left. -/
theorem pathFree_one_part :
    let onePart : CString := ⟨[0x30, 0x3a, 0x2f, 0x61], by decide⟩
    let noPart : CString := ⟨[0x30, 0x3a, 0x2f], by decide⟩
    (PathHeap.empty.pathParse .ascending onePart).map
        (fun r => (r.2, (r.1.pathFree r.2).map fun _ => ())) = some (1, .error .nullPart) ∧
      (PathHeap.empty.pathParse .ascending noPart).map (fun r => (r.2, r.1.live)) =
        some (0, [1]) ∧
      ¬ PathHeap.empty.Balanced .ascending onePart := by
  intro onePart noPart
  have hone : (PathHeap.empty.pathParse .ascending onePart).map
      (fun r => (r.2, (r.1.pathFree r.2).map fun _ => ())) = some (1, .error .nullPart) := by
    decide +kernel
  refine ⟨hone, by decide +kernel, ?_⟩
  rintro ⟨h', root, hparse, -, hfree⟩
  rw [hparse, Option.map_some, Option.some.injEq, Prod.mk.injEq] at hone
  obtain ⟨rfl, hfault⟩ := hone
  obtain ⟨h'', ret, hok, -⟩ := hfree Nat.one_ne_zero
  rw [hok] at hfault
  cases hfault

end UnagiOs
