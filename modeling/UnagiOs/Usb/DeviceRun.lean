import UnagiOs.Usb.Device

/-!
# Completions reach their issuers

A run of an initialized device: class drivers issue control requests, and the controller reports
transfer events. A request is outstanding from the moment its TRBs are on the ring until an event
completes or fails it; meanwhile nothing is pushed over its TRBs.

An event finds its request as long as both maps lead there. The TRBs themselves are in order
(`Issued`), and the two maps are never wrong about a place or a setup that is registered. But
`event_waiters_` is never cleaned, and a failed event leaves its entry in `setup_stage_map_`, so
in the end there is no slot left for a new request. `completions_delivered_iff` gives the exact
condition: every request finds its issuer under its setup data or a free slot for it, and the
place of its event in the map of stages or a free slot for it.
-/

namespace UnagiOs.Xhci

open List

/-- A request whose TRBs are on a ring. -/
structure Outstanding (D : Type) where
  setup : SetupData
  issuer : D
  ring : Nat
  /-- of the ring -/
  bufSize : Nat
  /-- the place of the setup TRB -/
  first : Nat
  /-- how many TRBs -/
  count : Nat
  deriving DecidableEq, Repr

namespace Outstanding

variable {D : Type}

def slots (q : Outstanding D) : List TrbPtr :=
  (Ring.places q.bufSize q.count q.first).map (TrbPtr.mk q.ring)

def setupPtr (q : Outstanding D) : TrbPtr := ⟨q.ring, q.first⟩

/-- The TRB that causes the event: the one after the setup TRB. -/
def eventPtr (q : Outstanding D) : TrbPtr := ⟨q.ring, Ring.nextIndex q.bufSize q.first⟩

/-- The event is the end of the request. -/
def ClosedBy (q : Outstanding D) (e : TransferEvent) : Prop :=
  (e.Completes ∧ e.pointer = q.eventPtr) ∨ (¬ e.Completes ∧ e.pointer ∈ q.slots)
  deriving Decidable

end Outstanding

/-- How many TRBs a request takes. -/
def ControlRequest.count (req : ControlRequest) : Nat := if req.buf ≠ 0 then 3 else 2

/-- What becomes outstanding when a request goes to a ring. -/
def newRequest {D : Type} (req : ControlRequest) (issuer : D) (i : Nat) (tr : Ring) :
    Outstanding D :=
  ⟨req.setup, issuer, i, tr.bufSize, tr.writeIndex, req.count⟩

structure DeviceRun (D : Type) where
  device : Device D
  outstanding : List (Outstanding D)

inductive DeviceOp (D : Type) where
  | controlIn (req : ControlRequest) (issuer : D)
  | controlOut (req : ControlRequest) (issuer : D)
  | event (e : TransferEvent)
  deriving DecidableEq, Repr

namespace DeviceRun

variable {D : Type}

/-- What becomes outstanding with a request: nothing, if it is refused. -/
def opened (r : DeviceRun D) (req : ControlRequest) (issuer : D) : List (Outstanding D) :=
  match r.device.transferRing req.ep with
  | some (.ok (i, tr)) => [newRequest req issuer i tr]
  | _ => []

def step (r : DeviceRun D) : DeviceOp D → Option (DeviceRun D)
  | .controlIn req issuer =>
    (r.device.controlIn req (some issuer)).map fun answer =>
      ⟨answer.1, r.opened req issuer ++ r.outstanding⟩
  | .controlOut req issuer =>
    (r.device.controlOut req (some issuer)).map fun answer =>
      ⟨answer.1, r.opened req issuer ++ r.outstanding⟩
  | .event e =>
    (r.device.onTransferEventReceived e).map fun answer =>
      ⟨answer.1, r.outstanding.filter fun q => ¬ q.ClosedBy e⟩

/-- The address is one of an endpoint, and the outstanding requests fit in the ring: the TRBs of
the new one do not meet, nor do they go over another's. -/
def Fits (r : DeviceRun D) (req : ControlRequest) (issuer : D) : Prop :=
  req.ep ≠ 0 ∧ ∀ q ∈ r.opened req issuer, q.slots.Nodup ∧
    ∀ q' ∈ r.outstanding, ∀ p ∈ q.slots, p ∉ q'.slots
  deriving Decidable

/-- An event points to a TRB of a transfer ring. -/
def Legal (r : DeviceRun D) : DeviceOp D → Prop
  | .controlIn req issuer | .controlOut req issuer => r.Fits req issuer
  | .event e => (r.device.trb e.pointer).isSome = true

instance decidableLegal (r : DeviceRun D) : ∀ op, Decidable (r.Legal op)
  | .controlIn req issuer | .controlOut req issuer =>
    inferInstanceAs (Decidable (r.Fits req issuer))
  | .event e => inferInstanceAs (Decidable ((r.device.trb e.pointer).isSome = true))

/-- The setup data leads to the issuer, or will; the place of the event is in the map of stages,
or will be. -/
def Registers (r : DeviceRun D) (req : ControlRequest) (issuer : D) : Prop :=
  ∀ q ∈ r.opened req issuer,
    (r.device.eventWaiters.get req.setup = some issuer ∨
      (r.device.eventWaiters.get req.setup = none ∧ r.device.eventWaiters.HasRoom)) ∧
    (r.device.setupStageMap.HasRoom ∨ r.device.setupStageMap.get q.eventPtr ≠ none)

instance decidableRegisters [DecidableEq D] (r : DeviceRun D) (req : ControlRequest) (issuer : D) :
    Decidable (r.Registers req issuer) :=
  inferInstanceAs (Decidable (∀ q ∈ r.opened req issuer, (_ ∨ (_ ∧ _)) ∧ (_ ∨ _)))

/-- Every request registers. -/
def Clear (r : DeviceRun D) : DeviceOp D → Prop
  | .controlIn req issuer | .controlOut req issuer => r.Registers req issuer
  | .event _ => True

instance decidableClear [DecidableEq D] (r : DeviceRun D) : ∀ op, Decidable (r.Clear op)
  | .controlIn req issuer | .controlOut req issuer =>
    inferInstanceAs (Decidable (r.Registers req issuer))
  | .event _ => isTrue trivial

end DeviceRun

namespace Device

variable {D : Type}

/-- The event reaches the issuer of the request, with the request's setup data. -/
def Delivers (dev : Device D) (e : TransferEvent) (q : Outstanding D) : Prop :=
  ∃ dev' buf len, dev.onTransferEventReceived e =
    some (dev', .controlCompleted q.issuer e.ep q.setup buf len)

/-- The buffer size of a transfer ring. -/
def ringSize (dev : Device D) (i : Nat) : Option Nat := (dev.transferRings i).map Ring.bufSize

/-- An initialized device: its rings are in use, no waiter was ever deleted, and a noted place
leads to the place before it. -/
structure Ready (dev : Device D) : Prop where
  initialized : dev.isInitialized = true
  rings : ∀ i tr, dev.transferRings i = some tr → tr.InUse
  waiters : dev.eventWaiters.Compact
  stages : ∀ p v, dev.setupStageMap.Holds p v → ∃ B j, dev.ringSize p.ring = some B ∧
    j + 1 < B ∧ p.index = Ring.nextIndex B j ∧ v = some ⟨p.ring, j⟩

end Device

/-- Whatever event completes an outstanding request reaches its issuer. -/
def DeviceRun.Deliverable {D : Type} (r : DeviceRun D) : Prop :=
  ∀ q ∈ r.outstanding, ∀ e : TransferEvent, e.Completes → e.pointer = q.eventPtr →
    r.device.Delivers e q

def deviceMachine (D : Type) : Machine (DeviceRun D) (DeviceOp D) := ⟨DeviceRun.step⟩

/-! ## The stages of a request -/

namespace ControlRequest

/-- The TRBs of a request. -/
def trbs (req : ControlRequest) (stages : ControlStages) : List TRB :=
  if req.buf ≠ 0 then
    [.makeSetupStage req.setup stages.withData,
      (TRB.makeDataStage req.buf req.len stages.dataIn).interruptOnCompletion,
      .statusStage stages.statusIn]
  else
    [.makeSetupStage req.setup .kNoDataStage, (TRB.statusStage true).interruptOnCompletion]

/-- Setup first, then the TRB that causes the event. -/
theorem trbs_eq (req : ControlRequest) (stages : ControlStages) :
    ∃ transferType t ts, req.trbs stages = .makeSetupStage req.setup transferType :: t :: ts ∧
      (t.trbType = TRB.dataStageType ∨ t.trbType = TRB.statusStageType) ∧
      (t :: ts).length + 1 = req.count := by
  unfold trbs count
  split
  · exact ⟨_, _, _, rfl, .inl (TRB.trbType_makeDataStage _ _ _), rfl⟩
  · exact ⟨_, _, _, rfl, .inr (TRB.trbType_statusStage _), rfl⟩

end ControlRequest

namespace Device

variable {D : Type} {dev : Device D} {stages : ControlStages} {i : Nat} {tr : Ring}
  {req : ControlRequest} {p : TrbPtr} {ep : Int}

theorem castSetupStage_enqueue (htr : tr.InUse) (s : SetupData) (transferType : TransferType) :
    castSetupStage i (tr.enqueue (.makeSetupStage s transferType)) tr.writeIndex =
      some ⟨i, tr.writeIndex⟩ := by
  rw [castSetupStage, Ring.buf_enqueue htr, if_pos rfl, TRB.trbType_setCycle,
    TRB.trbType_makeSetupStage, if_pos rfl]

/-- The TRBs of a request are pushed, and the place of its event is noted. -/
theorem pushStages_eq (htr : tr.InUse) :
    dev.pushStages stages i tr req = { dev with
      transferRings := setSlot dev.transferRings i (some (tr.enqueueAll (req.trbs stages)))
      setupStageMap := dev.setupStageMap.put ⟨i, Ring.nextIndex tr.bufSize tr.writeIndex⟩
        (some ⟨i, tr.writeIndex⟩) } := by
  unfold pushStages ControlRequest.trbs
  split
  · simp only [castSetupStage_enqueue htr, Ring.writeIndex_enqueue, Ring.enqueueAll_cons,
      Ring.enqueueAll_nil]
  · simp only [castSetupStage_enqueue htr, Ring.writeIndex_enqueue, Ring.enqueueAll_cons,
      Ring.enqueueAll_nil]

theorem trb_of_ring (hring : dev.transferRings p.ring = some tr) (hp : p.index < tr.bufSize) :
    dev.trb p = some (tr.buf p.index) := by
  simp only [trb, hring, if_pos hp]

/-- A ring that is handed out is one of the device's. -/
theorem transferRing_ok (h : dev.transferRing ep = some (.ok (i, tr))) :
    dev.transferRings i = some tr := by
  unfold transferRing at h
  split at h
  · cases h
  · split at h
    · cases h
    · split at h
      · cases h
      · next heq =>
        cases h
        exact heq

theorem transferRing_ne_none (hep : ep ≠ 0) : dev.transferRing ep ≠ none := by
  unfold transferRing
  rw [if_neg hep]
  split
  · exact Option.some_ne_none _
  · split
    · exact Option.some_ne_none _
    · exact Option.some_ne_none _

/-! ## Issued and registered -/

/-- The TRBs of a request are where they should be. -/
structure Issued (dev : Device D) (q : Outstanding D) : Prop where
  size : dev.ringSize q.ring = some q.bufSize
  first : q.first + 1 < q.bufSize
  count : 2 ≤ q.count
  setup : ∃ t, dev.trb q.setupPtr = some t ∧ t.setupData = q.setup
  event : ∃ t, dev.trb q.eventPtr = some t ∧
    (t.trbType = TRB.dataStageType ∨ t.trbType = TRB.statusStageType)

/-- Both maps have the request. -/
structure Registered (dev : Device D) (q : Outstanding D) : Prop where
  stage : dev.setupStageMap.get q.eventPtr ≠ none
  waiter : dev.eventWaiters.get q.setup = some q.issuer

variable {q : Outstanding D} {e : TransferEvent}

/-- The map of stages is right about the requests it has. -/
theorem Ready.stage_eq (hd : dev.Ready) (hq : dev.Issued q) {v : Option TrbPtr}
    (h : dev.setupStageMap.get q.eventPtr = some v) : v = some q.setupPtr := by
  obtain ⟨B, j, hB, -, hindex, rfl⟩ := hd.stages _ _ (ArrayMap.holds_of_get h)
  cases hB.symm.trans hq.size
  cases Ring.nextIndex_inj hindex
  rfl

/-- A completed transfer goes to whoever waits for its setup data. -/
theorem onControlCompleted_iff (hinit : dev.isInitialized = true) {s : SetupData} {buf : BitVec 64}
    {len : Int} {d : D} :
    (∃ buf' len', dev.onControlCompleted ep s buf len = .controlCompleted d ep s buf' len') ↔
      dev.eventWaiters.get s = some d := by
  rw [onControlCompleted, if_pos hinit]
  cases hget : dev.eventWaiters.get s with
  | none => simp
  | some w => simp

/-- **What decides a delivery**: both maps have the request. -/
theorem Issued.delivers_iff (hd : dev.Ready) (hq : dev.Issued q) (he : e.Completes)
    (hp : e.pointer = q.eventPtr) : dev.Delivers e q ↔ dev.Registered q := by
  obtain ⟨t, ht, htype⟩ := hq.event
  obtain ⟨u, hu, hsetup⟩ := hq.setup
  have hnormal : t.trbType ≠ TRB.normalType := by
    rcases htype with h | h
    · rw [h]; decide
    · rw [h]; decide
  unfold Delivers onTransferEventReceived
  rw [if_neg (not_not_intro he), hp, ht, Option.bind_some, if_neg hnormal]
  cases hget : dev.setupStageMap.get q.eventPtr with
  | none =>
    refine iff_of_false ?_ fun h => h.stage hget
    rintro ⟨dev', buf, len, heq⟩
    cases heq
  | some v =>
    cases hd.stage_eq hq hget
    have hstage : dev.setupStageMap.get q.eventPtr ≠ none := by
      rw [hget]
      exact Option.some_ne_none _
    have hread : ({ dev with setupStageMap := dev.setupStageMap.delete q.eventPtr }).trb
        q.setupPtr = some u := hu
    simp only [Option.bind_some, hread, Option.map_some, Option.some.injEq, Prod.mk.injEq]
    -- a data or a status stage: the waiter is called either way
    have hcomplete : ∃ buf len,
        ({ dev with setupStageMap := dev.setupStageMap.delete q.eventPtr }).completeControl e t u =
          ({ dev with setupStageMap := dev.setupStageMap.delete q.eventPtr }).onControlCompleted
            e.ep q.setup buf len := by
      unfold completeControl
      rw [hsetup]
      rcases htype with h | h
      · rw [if_pos h]
        exact ⟨_, _, rfl⟩
      · rw [if_neg (by rw [h]; decide), if_pos h]
        exact ⟨_, _, rfl⟩
    obtain ⟨buf, len, heq⟩ := hcomplete
    rw [heq]
    constructor
    · rintro ⟨dev', buf', len', -, hout⟩
      exact ⟨hstage, (onControlCompleted_iff hd.initialized).mp ⟨buf', len', hout⟩⟩
    · intro h
      obtain ⟨buf', len', hout⟩ := (onControlCompleted_iff hd.initialized).mpr h.waiter
      exact ⟨_, buf', len', rfl, hout⟩

/-! ## Events -/

/-- The maps' part of an event: at most, the noted place is deleted. -/
theorem Ready.event (hd : dev.Ready) (hvalid : (dev.trb e.pointer).isSome = true) :
    ∃ answer, dev.onTransferEventReceived e = some answer ∧ (answer.1 = dev ∨ (e.Completes ∧
      answer.1 = { dev with setupStageMap := dev.setupStageMap.delete e.pointer })) := by
  obtain ⟨t, ht⟩ := Option.isSome_iff_exists.mp hvalid
  unfold onTransferEventReceived
  by_cases he : e.Completes
  · rw [if_neg (not_not_intro he), ht, Option.bind_some]
    split
    · exact ⟨_, rfl, .inl rfl⟩
    · split
      · exact ⟨_, rfl, .inl rfl⟩
      · next v hget =>
        -- a noted setup TRB lies on its ring
        obtain ⟨B, j, hB, hj, -, rfl⟩ := hd.stages _ _ (ArrayMap.holds_of_get hget)
        obtain ⟨tr, htr, rfl⟩ := Option.map_eq_some_iff.mp hB
        have hread : dev.trb ⟨e.pointer.ring, j⟩ = some (tr.buf j) :=
          trb_of_ring htr (Nat.lt_of_succ_lt hj)
        have hread' : ({ dev with setupStageMap := dev.setupStageMap.delete e.pointer }).trb
            ⟨e.pointer.ring, j⟩ = some (tr.buf j) := hread
        simp only [Option.bind_some, hread', Option.map_some]
        exact ⟨_, rfl, .inr ⟨he, rfl⟩⟩
  · rw [if_pos he]
    exact ⟨_, rfl, .inl rfl⟩

theorem Ready.delete (hd : dev.Ready) (p : TrbPtr) :
    Ready { dev with setupStageMap := dev.setupStageMap.delete p } :=
  { hd with stages := fun k v h => hd.stages k v (ArrayMap.holds_of_delete h) }

theorem Registered.delete (hq : dev.Registered q) (hp : p ≠ q.eventPtr) :
    Registered { dev with setupStageMap := dev.setupStageMap.delete p } q where
  stage := by
    rw [ArrayMap.get_delete_ne hp.symm]
    exact hq.stage
  waiter := hq.waiter

/-! ## Requests -/

theorem Ready.register (hd : dev.Ready) (s : SetupData) (d : D) :
    (dev.register s (some d)).Ready :=
  { hd with waiters := hd.waiters.put }

theorem Registered.register (hd : dev.Ready) (hq : dev.Registered q) (s : SetupData) (d : D) :
    (dev.register s (some d)).Registered q :=
  { hq with waiter := ArrayMap.get_put_of_some hd.waiters hq.waiter }

end Device

namespace Outstanding

variable {D : Type} {q : Outstanding D}

theorem setupPtr_mem (hcount : 2 ≤ q.count) : q.setupPtr ∈ q.slots := by
  obtain ⟨k, hk⟩ := Nat.exists_eq_add_of_le' hcount
  rw [slots, hk]
  exact mem_cons_self

theorem eventPtr_mem (hcount : 2 ≤ q.count) : q.eventPtr ∈ q.slots := by
  obtain ⟨k, hk⟩ := Nat.exists_eq_add_of_le' hcount
  rw [slots, hk]
  exact mem_cons_of_mem _ mem_cons_self

end Outstanding

namespace Device

variable {D : Type} {dev : Device D} {stages : ControlStages} {i : Nat} {tr : Ring}
  {req : ControlRequest} {d : D} {q : Outstanding D}

theorem two_le_count : 2 ≤ req.count := by
  unfold ControlRequest.count
  split
  · decide
  · decide

theorem length_trbs : (req.trbs stages).length = req.count := by
  obtain ⟨_, t, ts, htrbs, -, hlen⟩ := req.trbs_eq stages
  rw [htrbs, length_cons, hlen]

section Push

variable (hd : dev.Ready) (htr : dev.transferRings i = some tr)

include hd htr

theorem Ready.ringSize_pushStages (k : Nat) :
    (dev.pushStages stages i tr req).ringSize k = dev.ringSize k := by
  rw [pushStages_eq (hd.rings i tr htr), ringSize, ringSize]
  by_cases hk : k = i
  · subst hk
    simp [setSlot, htr]
  · simp [setSlot, hk]

theorem Ready.pushStages : (dev.pushStages stages i tr req).Ready := by
  have huse := hd.rings i tr htr
  have hsize : ∀ k, (dev.pushStages stages i tr req).ringSize k = dev.ringSize k :=
    fun k => hd.ringSize_pushStages htr k
  rw [pushStages_eq huse] at hsize ⊢
  refine { hd with rings := fun k tr' hk => ?_, stages := fun p v hv => ?_ }
  · simp only [setSlot] at hk
    split at hk
    · cases hk
      exact huse.enqueueAll
    · exact hd.rings k tr' hk
  · simp only [hsize]
    rcases ArrayMap.holds_put.mp hv with hv | ⟨-, rfl, rfl⟩
    · exact hd.stages p v hv
    · refine ⟨tr.bufSize, tr.writeIndex, ?_, huse, rfl, rfl⟩
      rw [ringSize, htr]
      rfl

/-- The TRBs of others stay. -/
theorem Ready.trb_pushStages {p : TrbPtr} {B : Nat} (hB : dev.ringSize p.ring = some B)
    (hp : p.index + 1 < B) (hoff : p ∉ (newRequest req d i tr).slots) :
    (dev.pushStages stages i tr req).trb p = dev.trb p := by
  rw [pushStages_eq (hd.rings i tr htr)]
  by_cases hi : p.ring = i
  · obtain ⟨tr', htr', rfl⟩ := Option.map_eq_some_iff.mp hB
    have heq : tr' = tr := Option.some.inj (htr'.symm.trans (hi ▸ htr))
    subst heq
    rw [trb_of_ring htr' (Nat.lt_of_succ_lt hp)]
    have hplace : p.index ∉ Ring.places tr'.bufSize (req.trbs stages).length tr'.writeIndex := by
      rw [length_trbs]
      intro hmem
      have hptr : TrbPtr.mk i p.index = p := by rw [← hi]
      exact hoff (mem_map.mpr ⟨p.index, hmem, hptr⟩)
    rw [← Ring.enqueueAll_off hp hplace]
    apply trb_of_ring
    · exact if_pos hi
    · rw [Ring.bufSize_enqueueAll]
      exact Nat.lt_of_succ_lt hp
  · simp only [trb, setSlot, if_neg hi]

/-- The requests before stay issued. -/
theorem Ready.issued_other (hq : dev.Issued q)
    (hoff : ∀ p ∈ (newRequest req d i tr).slots, p ∉ q.slots) :
    (dev.pushStages stages i tr req).Issued q := by
  refine { hq with size := ?_, setup := ?_, event := ?_ }
  · rw [hd.ringSize_pushStages htr]
    exact hq.size
  · rw [hd.trb_pushStages htr hq.size hq.first
      fun h => hoff _ h (Outstanding.setupPtr_mem hq.count)]
    exact hq.setup
  · rw [hd.trb_pushStages htr hq.size (Ring.nextIndex_lt hq.first)
      fun h => hoff _ h (Outstanding.eventPtr_mem hq.count)]
    exact hq.event

/-- The new request is issued. -/
theorem Ready.issued_new (hnodup : (newRequest req d i tr).slots.Nodup) :
    (dev.pushStages stages i tr req).Issued (newRequest req d i tr) := by
  have huse := hd.rings i tr htr
  obtain ⟨transferType, t, ts, htrbs, htype, hlen⟩ := req.trbs_eq stages
  have hplaces : (Ring.places tr.bufSize ((t :: ts).length + 1) tr.writeIndex).Nodup := by
    rw [hlen]
    exact Nodup.of_map _ hnodup
  have hring : (dev.pushStages stages i tr req).transferRings i =
      some (tr.enqueueAll (.makeSetupStage req.setup transferType :: t :: ts)) := by
    rw [pushStages_eq huse, htrbs]
    exact if_pos rfl
  have hsize : dev.ringSize i = some tr.bufSize := by
    rw [ringSize, htr]
    rfl
  refine ⟨(hd.ringSize_pushStages htr i).trans hsize, huse, two_le_count, ?_, ?_⟩
  · refine ⟨_, trb_of_ring hring ?_, ?_⟩
    · rw [Ring.bufSize_enqueueAll]
      exact Nat.lt_of_succ_lt huse
    · exact (congrArg TRB.setupData (Ring.enqueueAll_head huse hplaces)).trans
        (TRB.setupData_makeSetupStage _ _ _)
  · refine ⟨_, trb_of_ring hring ?_, ?_⟩
    · rw [Ring.bufSize_enqueueAll]
      exact Nat.lt_of_succ_lt (Ring.nextIndex_lt huse)
    · -- the second TRB is the first of what is pushed after the setup TRB
      have hrest : (Ring.places (tr.enqueue (.makeSetupStage req.setup transferType)).bufSize
          (t :: ts).length
          (tr.enqueue (.makeSetupStage req.setup transferType)).writeIndex).Nodup := by
        rw [Ring.bufSize_enqueue, Ring.writeIndex_enqueue]
        exact hplaces.of_cons
      have hsecond := Ring.enqueueAll_head huse.enqueue hrest
      rw [Ring.writeIndex_enqueue] at hsecond
      rw [Ring.enqueueAll_cons]
      refine htype.imp (fun h => ?_) fun h => ?_
      · exact (congrArg TRB.trbType hsecond).trans (TRB.trbType_setCycle.trans h)
      · exact (congrArg TRB.trbType hsecond).trans (TRB.trbType_setCycle.trans h)

/-- Other requests stay in the map of stages. -/
theorem Ready.registered_other (hcount : 2 ≤ q.count) (hq : dev.Registered q)
    (hoff : ∀ p ∈ (newRequest req d i tr).slots, p ∉ q.slots) :
    (dev.pushStages stages i tr req).Registered q := by
  rw [pushStages_eq (hd.rings i tr htr)]
  refine { hq with stage := ?_ }
  have hne : q.eventPtr ≠ (newRequest req d i tr).eventPtr := by
    intro heq
    exact hoff _ (Outstanding.eventPtr_mem two_le_count) (heq ▸ Outstanding.eventPtr_mem hcount)
  exact (ArrayMap.get_put_ne hne).trans_ne hq.stage

/-- A request is in the map of stages afterwards if its place was noted or there was room. -/
theorem Ready.registered_new :
    (dev.pushStages stages i tr req).Registered (newRequest req d i tr) ↔
      (dev.setupStageMap.HasRoom ∨
        dev.setupStageMap.get (newRequest req d i tr).eventPtr ≠ none) ∧
      dev.eventWaiters.get req.setup = some d := by
  rw [pushStages_eq (hd.rings i tr htr)]
  have hstage : (dev.setupStageMap.put (newRequest req d i tr).eventPtr
      (some (newRequest req d i tr).setupPtr)).get (newRequest req d i tr).eventPtr ≠ none ↔
      (dev.setupStageMap.HasRoom ∨
        dev.setupStageMap.get (newRequest req d i tr).eventPtr ≠ none) := by
    rw [Ne, ArrayMap.get_put_self_eq_none, not_and_or, not_not]
  exact ⟨fun h => ⟨hstage.mp h.stage, h.waiter⟩, fun h => ⟨hstage.mpr h.1, h.2⟩⟩

end Push

end Device

/-! ## Runs -/

/-- The invariant: every outstanding request is issued and registered. -/
structure DeviceInv {D : Type} (r : DeviceRun D) : Prop where
  ready : r.device.Ready
  issued : ∀ q ∈ r.outstanding, r.device.Issued q
  registered : ∀ q ∈ r.outstanding, r.device.Registered q

namespace DeviceInv

variable {D : Type} {r : DeviceRun D} {req : ControlRequest} {d : D} {op : DeviceOp D}
  (hr : DeviceInv r)
include hr

theorem deliverable : r.Deliverable := fun q hq _ he hp =>
  ((hr.issued q hq).delivers_iff hr.ready he hp).mpr (hr.registered q hq)

/-- An event closes what it points to, and the other requests stay. -/
theorem event {e : TransferEvent} (hvalid : (r.device.trb e.pointer).isSome = true) :
    ∃ r', r.step (.event e) = some r' ∧ DeviceInv r' := by
  obtain ⟨answer, heq, hdev⟩ := hr.ready.event hvalid
  have hkept : ∀ q ∈ r.outstanding.filter fun q => ¬ q.ClosedBy e,
      q ∈ r.outstanding ∧ ¬ q.ClosedBy e := by
    intro q hq
    have hq' := mem_filter.mp hq
    exact ⟨hq'.1, of_decide_eq_true hq'.2⟩
  refine ⟨⟨answer.1, _⟩, by rw [DeviceRun.step, heq]; rfl, ?_⟩
  rcases hdev with hsame | ⟨he, hdelete⟩
  · rw [hsame]
    exact ⟨hr.ready, fun q hq => hr.issued q (hkept q hq).1,
      fun q hq => hr.registered q (hkept q hq).1⟩
  · rw [hdelete]
    refine ⟨hr.ready.delete _, fun q hq => ?_, fun q hq => ?_⟩
    · exact { hr.issued q (hkept q hq).1 with }
    · exact (hr.registered q (hkept q hq).1).delete fun hp => (hkept q hq).2 (.inl ⟨he, hp⟩)

/-- What a request leaves: everything is issued, what was registered stays registered, and the
new request is registered just if it could be. -/
theorem request (stages : ControlStages) (hfits : r.Fits req d) :
    ∃ answer, r.device.control stages req (some d) = some answer ∧ answer.1.Ready ∧
      (∀ q ∈ r.opened req d ++ r.outstanding, answer.1.Issued q) ∧
      (∀ q ∈ r.outstanding, answer.1.Registered q) ∧
      ((∀ q ∈ r.opened req d, answer.1.Registered q) ↔ r.Registers req d) := by
  have hready := hr.ready.register req.setup d
  have hissued : ∀ q ∈ r.outstanding, (r.device.register req.setup (some d)).Issued q :=
    fun q hq => { hr.issued q hq with }
  have hregistered : ∀ q ∈ r.outstanding, (r.device.register req.setup (some d)).Registered q :=
    fun q hq => (hr.registered q hq).register hr.ready _ _
  have hsame : (r.device.register req.setup (some d)).transferRing req.ep =
    r.device.transferRing req.ep := rfl
  obtain ⟨hep, hslots⟩ := hfits
  unfold Device.control DeviceRun.Registers
  simp only [hsame]
  cases hring : r.device.transferRing req.ep with
  | none => exact absurd hring (Device.transferRing_ne_none hep)
  | some target =>
    cases target with
    | error e =>
      have hopened : r.opened req d = [] := by simp only [DeviceRun.opened, hring]
      rw [hopened]
      exact ⟨_, rfl, hready, hissued, hregistered, by simp⟩
    | ok target =>
      obtain ⟨i, tr⟩ := target
      have htr : (r.device.register req.setup (some d)).transferRings i = some tr :=
        Device.transferRing_ok hring
      have hopened : r.opened req d = [newRequest req d i tr] := by
        simp only [DeviceRun.opened, hring]
      rw [hopened] at hslots ⊢
      obtain ⟨hnodup, hoff⟩ := hslots _ mem_cons_self
      refine ⟨_, rfl, hready.pushStages htr, fun q hq => ?_, fun q hq => ?_, ?_⟩
      · rcases mem_cons.mp hq with rfl | hq
        · exact hready.issued_new htr hnodup
        · exact hready.issued_other htr (hissued q hq) (hoff q hq)
      · exact hready.registered_other htr (hr.issued q hq).count (hregistered q hq) (hoff q hq)
      · rw [forall_mem_singleton, forall_mem_singleton, hready.registered_new htr,
          ← ArrayMap.get_put_self_eq hr.ready.waiters]
        exact and_comm

/-- A legal request can be made, and a completion of it then reaches its issuer just if it
registers. -/
theorem requested (stages : ControlStages) (hfits : r.Fits req d) :
    ∃ answer, r.device.control stages req (some d) = some answer ∧
      (r.Registers req d → DeviceInv ⟨answer.1, r.opened req d ++ r.outstanding⟩) ∧
      (DeviceRun.Deliverable ⟨answer.1, r.opened req d ++ r.outstanding⟩ →
        r.Registers req d) := by
  obtain ⟨answer, heq, hready, hissued, hkept, hiff⟩ := hr.request stages hfits
  refine ⟨answer, heq, fun hok => ⟨hready, hissued, fun q hq => ?_⟩, fun hdeliver => ?_⟩
  · rcases mem_append.mp hq with hq | hq
    · exact hiff.mpr hok q hq
    · exact hkept q hq
  · refine hiff.mp fun q hq => ?_
    have hq' : q ∈ r.opened req d ++ r.outstanding := mem_append_left _ hq
    have he : (TransferEvent.mk q.eventPtr 0 1 1).Completes := .inl rfl
    exact ((hissued q hq').delivers_iff hready he rfl).mp (hdeliver q hq' _ he rfl)

/-- **One step** of a run in which every request registers. -/
theorem step (hlegal : r.Legal op) (hclear : r.Clear op) :
    ∃ r', (deviceMachine D).step r op = some r' ∧ True ∧ DeviceInv r' := by
  cases op with
  | controlIn req d =>
    obtain ⟨answer, heq, hinv, -⟩ := hr.requested ⟨.kInDataStage, true, false⟩ hlegal
    exact ⟨_, congrArg (Option.map _) heq, trivial, hinv hclear⟩
  | controlOut req d =>
    obtain ⟨answer, heq, hinv, -⟩ := hr.requested ⟨.kOutDataStage, false, true⟩ hlegal
    exact ⟨_, congrArg (Option.map _) heq, trivial, hinv hclear⟩
  | event e =>
    obtain ⟨r', heq, hinv⟩ := hr.event hlegal
    exact ⟨r', heq, trivial, hinv⟩

/-- A request that does not register is lost. -/
theorem lost (hlegal : r.Legal op) (hclear : ¬ r.Clear op) {r' : DeviceRun D}
    (hstep : (deviceMachine D).step r op = some r') : ¬ r'.Deliverable := by
  intro hdeliver
  apply hclear
  cases op with
  | controlIn req d =>
    obtain ⟨answer, heq, -, hreg⟩ := hr.requested ⟨.kInDataStage, true, false⟩ hlegal
    cases (congrArg (Option.map _) heq).symm.trans hstep
    exact hreg hdeliver
  | controlOut req d =>
    obtain ⟨answer, heq, -, hreg⟩ := hr.requested ⟨.kOutDataStage, false, true⟩ hlegal
    cases (congrArg (Option.map _) heq).symm.trans hstep
    exact hreg hdeliver
  | event e => trivial

end DeviceInv

/-! ## Result -/

/-- **Completions reach their issuers** just as long as every request finds its issuer under its
setup data, or nobody and a free slot, and the place of its event in the map of stages, or a free
slot. -/
theorem completions_delivered_iff {D : Type} {dev : Device D} (hready : dev.Ready)
    {ops : List (DeviceOp D)} (hlegal : (deviceMachine D).AllSteps DeviceRun.Legal ⟨dev, []⟩ ops) :
    (deviceMachine D).AllStates DeviceRun.Deliverable ⟨dev, []⟩ ops ↔
      (deviceMachine D).AllSteps DeviceRun.Clear ⟨dev, []⟩ ops := by
  have hstart : DeviceInv ⟨dev, []⟩ :=
    ⟨hready, fun _ h => absurd h not_mem_nil, fun _ h => absurd h not_mem_nil⟩
  exact Machine.always_iff (fun r (hr : DeviceInv r) => hr.deliverable)
    (fun r op hr hleg hok => hr.step hleg hok)
    (fun r op r' hr hleg hbad hstep _ => hr.lost hleg hbad hstep) hstart hlegal

/-- A device with one ring of 32 TRBs, just initialized. -/
def freshDevice (D : Type) : Device D where
  transferRings i := if i = 0 then some ⟨fun _ => .zero, 0x1000, 32, true, 0⟩ else none
  setupStageMap := .empty
  eventWaiters := .empty
  classDrivers _ := none
  isInitialized := true

theorem ready_freshDevice (D : Type) : (freshDevice D).Ready where
  initialized := rfl
  rings i tr h := by
    simp only [freshDevice] at h
    split at h
    · cases h
      show 0 + 1 < 32
      decide
    · cases h
  waiters := ArrayMap.compact_empty
  stages _ _ h := absurd h ArrayMap.not_holds_empty

/-- Two drivers, one of which asks again after a failure. -/
theorem completions_delivered_iff_two_drivers :
    (deviceMachine Bool).AllStates DeviceRun.Deliverable ⟨freshDevice Bool, []⟩
      [.controlIn ⟨1, ⟨0x81, 6, 0x2200, 0, 64⟩, 0x9000, 64⟩ true,
        .controlOut ⟨1, ⟨0x21, 11, 0, 0, 0⟩, 0, 0⟩ false,
        .event ⟨⟨0, 1⟩, 64, 4, 1⟩,
        .controlIn ⟨1, ⟨0x81, 6, 0x2200, 0, 64⟩, 0x9000, 64⟩ true,
        .event ⟨⟨0, 4⟩, 0, 1, 1⟩,
        .event ⟨⟨0, 6⟩, 10, 13, 1⟩] :=
  (completions_delivered_iff (ready_freshDevice Bool) (by decide +kernel)).mpr (by decide +kernel)

/-- Four requests are completed one after the other, each with setup data of its own. Their
waiters stay, and the completion of a fifth finds none. -/
theorem fifth_setup_has_no_waiter :
    (freshDevice Unit).Ready ∧
      (let setup (value : BitVec 16) : SetupData := ⟨0x21, 11, value, 0, 0⟩
      let ops : List (DeviceOp Unit) :=
        [.controlOut ⟨1, setup 0, 0, 0⟩ (), .event ⟨⟨0, 1⟩, 0, 1, 1⟩,
          .controlOut ⟨1, setup 1, 0, 0⟩ (), .event ⟨⟨0, 3⟩, 0, 1, 1⟩,
          .controlOut ⟨1, setup 2, 0, 0⟩ (), .event ⟨⟨0, 5⟩, 0, 1, 1⟩,
          .controlOut ⟨1, setup 3, 0, 0⟩ (), .event ⟨⟨0, 7⟩, 0, 1, 1⟩,
          .controlOut ⟨1, setup 4, 0, 0⟩ ()]
      (deviceMachine Unit).AllSteps DeviceRun.Legal ⟨freshDevice Unit, []⟩ ops ∧
        ∃ r, (deviceMachine Unit).run ⟨freshDevice Unit, []⟩ ops = some r ∧
          r.outstanding = [⟨setup 4, (), 0, 32, 8, 2⟩] ∧
          r.outstanding.map Outstanding.eventPtr = [⟨0, 9⟩] ∧
          (r.device.onTransferEventReceived ⟨⟨0, 9⟩, 0, 1, 1⟩).map Prod.snd =
            some (.error .kNoWaiter)) :=
  ⟨ready_freshDevice Unit, by decide +kernel, Machine.exists_run_of_any (by decide +kernel)⟩

end UnagiOs.Xhci
