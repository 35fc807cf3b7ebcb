import UnagiOs.Theory.Machine
import UnagiOs.Usb.PortConfig

/-!
# Turns at the bus

Events for any ports and slots, in any order, with the port registers changing in
between. `PhaseStep` says once what an event can do to the phases; the results
follow from it.

- `one_port_addressing`: the ports between reset and addressing are at most one, it is
  `addressing_port`, and no phase moves backward.
- `none_stranded_iff`: when nobody has the turn, no connected port waits for it. This
  needs the lowest waiting port to be connected when the turn is passed on: the loop
  stops at that port, and a reset of a port that is gone is a success.
-/

namespace UnagiOs.Xhci

inductive PortOp where
  /-- The controller changes the register of a port. -/
  | status (port : Fin 256) (status : PortStatus)
  | configurePort (port : Fin 256)
  | portStatusChange (portId : Fin 256)
  | transfer (slotId : Nat) (received : Error) (isInitialized : Bool) (portId : Fin 256)
  | commandCompletion (issuerType : IssuerType) (slotId : Nat) (portId : Fin 256)
  deriving DecidableEq, Repr

namespace Controller

/-- No port is connected yet. -/
def start (ports : Fin 256 → PortStatus) (maxSlots : Nat) : Controller :=
  ⟨fun _ => .kNotConnected, 0, ports, maxSlots, fun _ => false, []⟩

def step (xhc : Controller) : PortOp → Option Controller
  | .status port status => some { xhc with ports := Function.update xhc.ports port status }
  | .configurePort port => some (xhc.configurePort port).1
  | .portStatusChange portId => some (xhc.onPortStatusChange portId).1
  | .transfer slotId received isInitialized portId =>
    some (xhc.onTransfer slotId received isInitialized portId).1
  | .commandCompletion issuerType slotId portId =>
    some (xhc.onCommandCompletion issuerType slotId portId).1

end Controller

/-- Ports are numbered from 1. -/
def PortOp.Legal : PortOp → Prop
  | .configurePort port => port ≠ 0
  | .portStatusChange portId => portId ≠ 0
  | _ => True

instance PortOp.decidableLegal : ∀ op : PortOp, Decidable op.Legal
  | .status _ _ => isTrue trivial
  | .configurePort port => inferInstanceAs (Decidable (port ≠ 0))
  | .portStatusChange portId => inferInstanceAs (Decidable (portId ≠ 0))
  | .transfer _ _ _ _ => isTrue trivial
  | .commandCompletion _ _ _ => isTrue trivial

def portMachine : Machine Controller PortOp := ⟨Controller.step⟩

/-! ## What an event does to the phases -/

/-- The completion of the Address Device command of the port that has the turn. -/
def PortOp.EndsTurn (x : Controller) : PortOp → Prop
  | .commandCompletion .addressDeviceCommand slotId portId =>
    x.findBySlot slotId = true ∧ portId = x.addressingPort ∧
      x.portConfigPhase portId = .kAddressingDevice
  | _ => False

instance PortOp.decidableEndsTurn (x : Controller) : ∀ op : PortOp, Decidable (op.EndsTurn x)
  | .commandCompletion .addressDeviceCommand _ _ => inferInstanceAs (Decidable (_ ∧ _ ∧ _))
  | .commandCompletion .enableSlotCommand _ _ => isFalse id
  | .commandCompletion .configureEndpointCommand _ _ => isFalse id
  | .commandCompletion (.other _) _ _ => isFalse id
  | .status _ _ => isFalse id
  | .configurePort _ => isFalse id
  | .portStatusChange _ => isFalse id
  | .transfer _ _ _ _ => isFalse id

/-- The end of a turn. -/
inductive TurnEnd (x x' : Controller) : Prop
  /-- Nobody gets the next turn. -/
  | releases (hnext : ∀ i ∈ x.firstWaiting, (x.ports i).isConnected = false)
      (hphase : x'.portConfigPhase =
        Function.update x.portConfigPhase x.addressingPort .kInitializingDevice)
      (hturn : x'.addressingPort = 0)
  /-- The lowest waiting port gets the next turn. -/
  | handsOver (i : Fin 256) (hi : x.firstWaiting = some i)
      (hconn : (x.ports i).isConnected = true)
      (hphase : x'.portConfigPhase =
        Function.update (Function.update x.portConfigPhase i .kResettingPort)
          x.addressingPort .kInitializingDevice)
      (hturn : x'.addressingPort = i)

/-- The moves of a port that neither take nor leave the turn: the first two are made within it,
the others behind it. -/
inductive ConfigPhase.Moves : ConfigPhase → ConfigPhase → Prop
  | enables : Moves .kResettingPort .kEnablingSlot
  | addresses : Moves .kEnablingSlot .kAddressingDevice
  | configures : Moves .kInitializingDevice .kConfiguringEndpoints
  | completes : Moves .kConfiguringEndpoints .kConfigured

/-- The effect of a handler on phases and turn. -/
inductive PhaseStep (x : Controller) (op : PortOp) (x' : Controller) : Prop
  | still (hphase : x'.portConfigPhase = x.portConfigPhase)
      (hturn : x'.addressingPort = x.addressingPort)
  /-- A connected port has to wait. -/
  | waits (p : Fin 256) (hp : p ≠ 0) (hbusy : x.addressingPort ≠ 0)
      (hold : x.portConfigPhase p = .kNotConnected)
      (hphase : x'.portConfigPhase = Function.update x.portConfigPhase p .kWaitingAddressed)
      (hturn : x'.addressingPort = x.addressingPort)
  /-- A connected port takes the turn at once. -/
  | resets (p : Fin 256) (hp : p ≠ 0) (hfree : x.addressingPort = 0)
      (hold : x.portConfigPhase p = .kNotConnected)
      (hphase : x'.portConfigPhase = Function.update x.portConfigPhase p .kResettingPort)
      (hturn : x'.addressingPort = p)
  | moves (p : Fin 256) (next : ConfigPhase) (hmove : (x.portConfigPhase p).Moves next)
      (hphase : x'.portConfigPhase = Function.update x.portConfigPhase p next)
      (hturn : x'.addressingPort = x.addressingPort)
  | ends (hop : op.EndsTurn x) (hold : x.portConfigPhase x.addressingPort = .kAddressingDevice)
      (hend : TurnEnd x x')

/-- The effect of a handler; it does not connect or disconnect ports. -/
structure HandlerStep (x : Controller) (op : PortOp) (x' : Controller) : Prop where
  phases : PhaseStep x op x'
  connected : ∀ q, (x'.ports q).isConnected = (x.ports q).isConnected

namespace Controller

variable {x : Controller} {op : PortOp} {p : Fin 256} {slotId : Nat}

theorem handlerStep_of_ports {x' : Controller} (h : PhaseStep x op x')
    (hports : x'.ports = x.ports) : HandlerStep x op x' :=
  ⟨h, fun q => by rw [hports]⟩

/-- An event that is turned away. -/
theorem handlerStep_rfl : HandlerStep x op x := handlerStep_of_ports (.still rfl rfl) rfl

theorem resetPort_step (hp : p ≠ 0) (hold : x.portConfigPhase p = .kNotConnected) :
    HandlerStep x op (x.resetPort p).1 := by
  unfold resetPort
  split
  · exact handlerStep_rfl
  · split
    · next hbusy => exact handlerStep_of_ports (.waits p hp hbusy hold rfl rfl) rfl
    · next hfree =>
      have hfree : x.addressingPort = 0 := Classical.not_not.mp hfree
      rw [if_neg (by simp [hold])]
      exact handlerStep_of_ports (.resets p hp hfree hold rfl rfl) rfl

theorem resetPort_gone (hconn : (x.ports p).isConnected = false) :
    x.resetPort p = (x, .kSuccess) := by
  rw [resetPort, hconn]
  rfl

theorem resetPort_waiting (hfree : x.addressingPort = 0)
    (hwait : x.portConfigPhase p = .kWaitingAddressed) (hconn : (x.ports p).isConnected = true) :
    x.resetPort p = ({ x with addressingPort := p }.setPhase p .kResettingPort, .kSuccess) := by
  rw [resetPort, hconn, hfree, hwait]
  rfl

theorem enableSlot_step (hold : x.portConfigPhase p = .kResettingPort) :
    HandlerStep x op (x.enableSlot p).1 := by
  unfold enableSlot
  dsimp only
  split
  · refine ⟨.moves p .kEnablingSlot (hold ▸ .enables) rfl rfl, fun q => ?_⟩
    show (Function.update x.ports p _ q).isConnected = _
    by_cases hq : q = p
    · subst hq
      rw [Function.update_self]
    · rw [Function.update_of_ne hq]
  · exact handlerStep_rfl

theorem allocDevice_eq (x : Controller) (slotId : Nat) :
    (x.allocDevice slotId).1.portConfigPhase = x.portConfigPhase ∧
      (x.allocDevice slotId).1.addressingPort = x.addressingPort ∧
      (x.allocDevice slotId).1.ports = x.ports := by
  unfold allocDevice
  split
  · exact ⟨rfl, rfl, rfl⟩
  · split <;> exact ⟨rfl, rfl, rfl⟩

theorem addressDevice_step (hold : x.portConfigPhase p = .kEnablingSlot) :
    HandlerStep x op (x.addressDevice p slotId).1 := by
  obtain ⟨hphase, hturn, hports⟩ := allocDevice_eq x slotId
  unfold addressDevice
  dsimp only
  split
  · exact handlerStep_of_ports (.still hphase hturn) hports
  · refine handlerStep_of_ports (.moves p .kAddressingDevice (hold ▸ .addresses) ?_ hturn) hports
    show Function.update (x.allocDevice slotId).1.portConfigPhase p .kAddressingDevice = _
    rw [hphase]

theorem configureEndpoints_step (hold : x.portConfigPhase p = .kInitializingDevice) :
    HandlerStep x op (x.configureEndpoints p slotId).1 := by
  unfold configureEndpoints
  dsimp only
  split
  · exact handlerStep_rfl
  · exact handlerStep_of_ports (.moves p .kConfiguringEndpoints (hold ▸ .configures) rfl rfl) rfl

theorem completeConfiguration_step (hold : x.portConfigPhase p = .kConfiguringEndpoints) :
    HandlerStep x op (x.completeConfiguration p slotId).1 := by
  unfold completeConfiguration
  split
  · exact handlerStep_rfl
  · exact handlerStep_of_ports (.moves p .kConfigured (hold ▸ .completes) rfl rfl) rfl

theorem waiting_of_firstWaiting {i : Fin 256} (h : x.firstWaiting = some i) :
    x.portConfigPhase i = .kWaitingAddressed := by
  simpa using (find?_finRange_eq_some_iff.mp h).1

theorem none_waiting (h : x.firstWaiting = none) (q : Fin 256) :
    x.portConfigPhase q ≠ .kWaitingAddressed := by
  simpa using find?_finRange_eq_none_iff.mp h q

/-- What the code does at the end of a turn: pass it on, then go on with the port. -/
theorem onAddressed_eq (hslot : x.findBySlot slotId = true)
    (hold : x.portConfigPhase x.addressingPort = .kAddressingDevice) :
    x.onCommandCompletion .addressDeviceCommand slotId x.addressingPort =
      let y := { x with addressingPort := 0 }.handOver
      if y.2 ≠ .kSuccess then y else y.1.initializeDevice x.addressingPort slotId := by
  unfold onCommandCompletion
  simp only [hslot, hold, ne_eq, not_true_eq_false, if_false, Bool.not_true, Bool.false_eq_true]

/-- A completion that does not belong to the port that has the turn. -/
theorem turned_away (h : ¬ (x.findBySlot slotId = true ∧ p = x.addressingPort ∧
      x.portConfigPhase p = .kAddressingDevice)) :
    (x.onCommandCompletion .addressDeviceCommand slotId p).1 = x := by
  unfold onCommandCompletion
  dsimp only
  split
  · rfl
  · next hslot =>
    split
    · rfl
    · next hp =>
      split
      · rfl
      · next hold =>
        exact absurd ⟨by simpa using hslot, Classical.not_not.mp hp, Classical.not_not.mp hold⟩ h

/-- After the device of the turn has been addressed, the turn ends. -/
theorem addressed_step (hslot : x.findBySlot slotId = true)
    (hold : x.portConfigPhase x.addressingPort = .kAddressingDevice) :
    let x' := (x.onCommandCompletion .addressDeviceCommand slotId x.addressingPort).1
    TurnEnd x x' ∧ x'.ports = x.ports := by
  rw [onAddressed_eq hslot hold]
  dsimp only
  -- with `addressing_port` cleared nothing else has changed yet
  let y : Controller := { x with addressingPort := 0 }
  have hreleases : (∀ i ∈ x.firstWaiting, (x.ports i).isConnected = false) →
      TurnEnd x (y.initializeDevice x.addressingPort slotId).1 ∧
        (y.initializeDevice x.addressingPort slotId).1.ports = x.ports := by
    intro hnext
    have hslot' : y.findBySlot slotId = true := hslot
    rw [initializeDevice, hslot']
    exact ⟨.releases hnext rfl rfl, rfl⟩
  cases hfirst : x.firstWaiting with
  | none =>
    have hover : y.handOver = (y, .kSuccess) := by
      have hfirst' : y.firstWaiting = none := hfirst
      rw [handOver, hfirst']
    rw [hover]
    exact hreleases (by simp [hfirst])
  | some i =>
    have hover : y.handOver = y.resetPort i := by
      have hfirst' : y.firstWaiting = some i := hfirst
      rw [handOver, hfirst']
    rw [hover]
    cases hconn : (x.ports i).isConnected with
    | false =>
      rw [resetPort_gone (x := y) hconn]
      exact hreleases (by simp [hfirst, hconn])
    | true =>
      rw [resetPort_waiting (x := y) rfl (waiting_of_firstWaiting hfirst) hconn]
      let z : Controller := { y with addressingPort := i }.setPhase i .kResettingPort
      have hslot' : z.findBySlot slotId = true := hslot
      show TurnEnd x (z.initializeDevice x.addressingPort slotId).1 ∧
        (z.initializeDevice x.addressingPort slotId).1.ports = x.ports
      rw [initializeDevice, hslot']
      exact ⟨.handsOver i hfirst hconn rfl rfl, rfl⟩

/-- What the handler of a completed command can do. -/
theorem commandCompletion_step {issuerType : IssuerType} :
    HandlerStep x (.commandCompletion issuerType slotId p)
      (x.onCommandCompletion issuerType slotId p).1 := by
  cases issuerType with
  | enableSlotCommand =>
    unfold onCommandCompletion
    dsimp only
    split
    · exact handlerStep_rfl
    · next hold => exact addressDevice_step (Classical.not_not.mp hold)
  | addressDeviceCommand =>
    by_cases hok : (PortOp.commandCompletion .addressDeviceCommand slotId p).EndsTurn x
    · obtain ⟨hslot, rfl, hold⟩ := id hok
      obtain ⟨hend, hports⟩ := addressed_step hslot hold
      exact handlerStep_of_ports (.ends hok hold hend) hports
    · rw [turned_away hok]
      exact handlerStep_rfl
  | configureEndpointCommand =>
    unfold onCommandCompletion
    dsimp only
    split
    · exact handlerStep_rfl
    · split
      · exact handlerStep_rfl
      · next hold => exact completeConfiguration_step (Classical.not_not.mp hold)
  | other type => exact handlerStep_rfl

/-- A change of a port register, or the effect of a handler. -/
theorem step_cases (hlegal : op.Legal) {x' : Controller}
    (hstep : portMachine.step x op = some x') :
    (∃ q st, op = .status q st ∧ x' = { x with ports := Function.update x.ports q st }) ∨
      HandlerStep x op x' := by
  cases op with
  | status q st => exact .inl ⟨q, st, rfl, (Option.some.inj hstep).symm⟩
  | configurePort q =>
    cases hstep
    right
    unfold configurePort
    split
    · next hold => exact resetPort_step hlegal hold
    · exact handlerStep_rfl
  | portStatusChange q =>
    cases hstep
    right
    unfold onPortStatusChange
    split
    · next hold => exact resetPort_step hlegal hold
    · next hold => exact enableSlot_step hold
    · exact handlerStep_rfl
  | transfer slotId received isInitialized q =>
    cases hstep
    right
    unfold onTransfer
    split
    · exact handlerStep_rfl
    · split
      · exact handlerStep_rfl
      · split
        · next h => exact configureEndpoints_step h.2
        · exact handlerStep_rfl
  | commandCompletion issuerType slotId q =>
    cases hstep
    exact .inr commandCompletion_step

end Controller

/-! ## One turn at a time -/

/-- The order of the phases. -/
def ConfigPhase.rank : ConfigPhase → Nat
  | .kNotConnected => 0
  | .kWaitingAddressed => 1
  | .kResettingPort => 2
  | .kEnablingSlot => 3
  | .kAddressingDevice => 4
  | .kInitializingDevice => 5
  | .kConfiguringEndpoints => 6
  | .kConfigured => 7

/-- The phases from reset to addressing. -/
def ConfigPhase.InTurn (phase : ConfigPhase) : Prop :=
  phase = .kResettingPort ∨ phase = .kEnablingSlot ∨ phase = .kAddressingDevice
  deriving Decidable

/-- At most one port is between reset and addressing, it is `addressing_port`, and
`addressing_port` is nonzero exactly when there is one. -/
structure OneAddressing (x : Controller) : Prop where
  unique : ∀ p q, (x.portConfigPhase p).InTurn → (x.portConfigPhase q).InTurn → p = q
  addressing : ∀ p, (x.portConfigPhase p).InTurn → p = x.addressingPort
  nonzero_iff : x.addressingPort ≠ 0 ↔ ∃ p, (x.portConfigPhase p).InTurn

/-- No phase moves backward. -/
def Forward (x x' : Controller) : Prop :=
  ∀ p, (x.portConfigPhase p).rank ≤ (x'.portConfigPhase p).rank

structure PortInv (x : Controller) : Prop where
  only : ∀ p, (x.portConfigPhase p).InTurn → p = x.addressingPort
  turn : x.addressingPort ≠ 0 → (x.portConfigPhase x.addressingPort).InTurn
  zero : x.portConfigPhase 0 = .kNotConnected

/-- What a move within the turn or behind it does to a phase. -/
theorem ConfigPhase.Moves.spec {phase next : ConfigPhase} (h : phase.Moves next) :
    phase.rank ≤ next.rank ∧ (next.InTurn ↔ phase.InTurn) ∧ phase ≠ .kNotConnected ∧
      next ≠ .kWaitingAddressed := by
  cases h <;> decide

theorem rank_update {f : Fin 256 → ConfigPhase} {p : Fin 256} {next : ConfigPhase}
    (h : (f p).rank ≤ next.rank) (q : Fin 256) :
    (f q).rank ≤ (Function.update f p next q).rank := by
  by_cases hq : q = p
  · subst hq
    rwa [Function.update_self]
  · rw [Function.update_of_ne hq]

/-- No handler moves a phase backward. -/
theorem PhaseStep.forward {x x' : Controller} {op : PortOp} (h : PhaseStep x op x') :
    Forward x x' := by
  intro q
  cases h with
  | still hphase => rw [hphase]
  | waits p _ _ hold hphase =>
    rw [hphase]
    exact rank_update (by rw [hold]; decide) q
  | resets p _ _ hold hphase =>
    rw [hphase]
    exact rank_update (by rw [hold]; decide) q
  | moves p next hmove hphase =>
    rw [hphase]
    exact rank_update hmove.spec.1 q
  | ends _ hold hend =>
    cases hend with
    | releases _ hphase =>
      rw [hphase]
      exact rank_update (by rw [hold]; decide) q
    | handsOver i hi _ hphase =>
      have hwait := Controller.waiting_of_firstWaiting hi
      have hne : x.addressingPort ≠ i := by
        intro he
        rw [he, hwait] at hold
        cases hold
      rw [hphase]
      refine (rank_update (by rw [hwait]; decide) q).trans (rank_update ?_ q)
      rw [Function.update_of_ne hne, hold]
      decide

namespace PortInv

variable {x x' : Controller} {p : Fin 256} {op : PortOp}

theorem start (ports : Fin 256 → PortStatus) (maxSlots : Nat) :
    PortInv (.start ports maxSlots) := by
  refine ⟨fun p hp => ?_, fun h => absurd rfl h, rfl⟩
  have : ¬ ConfigPhase.InTurn .kNotConnected := by decide
  exact absurd hp this

variable (hx : PortInv x)
include hx

theorem ne_zero_of_phase {phase : ConfigPhase}
    (hold : x.portConfigPhase p = phase) (hphase : phase ≠ .kNotConnected) : p ≠ 0 := by
  rintro rfl
  exact hphase (hold.symm.trans hx.zero)

/-- A port that has the turn is not port 0. -/
theorem ne_zero (hp : (x.portConfigPhase p).InTurn) : p ≠ 0 := by
  refine hx.ne_zero_of_phase rfl fun h => ?_
  rw [h] at hp
  revert hp
  decide

/-- While the turn is free nobody has it. -/
theorem none_in_turn (hfree : x.addressingPort = 0) (p : Fin 256) :
    ¬ (x.portConfigPhase p).InTurn :=
  fun hp => hx.ne_zero hp ((hx.only p hp).trans hfree)

/-- A port moves without taking or leaving the turn. -/
theorem move {next : ConfigPhase} (hp : p ≠ 0)
    (hsame : next.InTurn ↔ (x.portConfigPhase p).InTurn)
    (hphase : x'.portConfigPhase = Function.update x.portConfigPhase p next)
    (hturn : x'.addressingPort = x.addressingPort) : PortInv x' := by
  have hinTurn : ∀ q, (x'.portConfigPhase q).InTurn ↔ (x.portConfigPhase q).InTurn := by
    intro q
    rw [hphase]
    by_cases hq : q = p
    · subst hq
      rw [Function.update_self, hsame]
    · rw [Function.update_of_ne hq]
  refine ⟨fun q hq => ?_, fun hne => ?_, ?_⟩
  · rw [hturn]
    exact hx.only q ((hinTurn q).mp hq)
  · rw [hturn] at hne ⊢
    exact (hinTurn _).mpr (hx.turn hne)
  · rw [hphase, Function.update_of_ne hp.symm, hx.zero]

/-- A port takes the free turn. -/
theorem take (hfree : x.addressingPort = 0) (hp : p ≠ 0)
    (hphase : x'.portConfigPhase = Function.update x.portConfigPhase p .kResettingPort)
    (hturn : x'.addressingPort = p) : PortInv x' := by
  refine ⟨fun q hq => ?_, fun _ => ?_, ?_⟩
  · rw [hturn]
    by_contra hne
    rw [hphase, Function.update_of_ne hne] at hq
    exact hx.none_in_turn hfree q hq
  · rw [hturn, hphase, Function.update_self]
    exact .inl rfl
  · rw [hphase, Function.update_of_ne hp.symm, hx.zero]

/-- The port that has the turn leaves it. -/
theorem release (hold : x.portConfigPhase x.addressingPort = .kAddressingDevice)
    (hphase : x'.portConfigPhase =
      Function.update x.portConfigPhase x.addressingPort .kInitializingDevice)
    (hturn : x'.addressingPort = 0) : PortInv x' := by
  have hne : x.addressingPort ≠ 0 := hx.ne_zero (.inr (.inr hold))
  refine ⟨fun q hq => ?_, fun h => absurd hturn h, ?_⟩
  · exfalso
    rw [hphase] at hq
    by_cases hqa : q = x.addressingPort
    · rw [hqa, Function.update_self] at hq
      revert hq
      decide
    · rw [Function.update_of_ne hqa] at hq
      exact hqa (hx.only q hq)
  · rw [hphase, Function.update_of_ne hne.symm, hx.zero]

/-- A handler keeps the turn in order. -/
theorem phaseStep (h : PhaseStep x op x') : PortInv x' := by
  cases h with
  | still hphase hturn =>
    refine ⟨?_, ?_, ?_⟩
    · rw [hphase, hturn]
      exact hx.only
    · rw [hphase, hturn]
      exact hx.turn
    · rw [hphase, hx.zero]
  | waits p hp _ hold hphase hturn => exact hx.move hp (by rw [hold]; decide) hphase hturn
  | resets p hp hfree _ hphase hturn => exact hx.take hfree hp hphase hturn
  | moves p next hmove hphase hturn =>
    obtain ⟨-, hsame, hold, -⟩ := hmove.spec
    exact hx.move (hx.ne_zero_of_phase rfl hold) hsame hphase hturn
  | ends _ hold hend =>
    cases hend with
    | releases _ hphase hturn => exact hx.release hold hphase hturn
    | handsOver i hi _ hphase hturn =>
      have hwait := Controller.waiting_of_firstWaiting hi
      have hia : i ≠ x.addressingPort := by
        rintro rfl
        rw [hwait] at hold
        cases hold
      -- first the turn is free, then the waiting port takes it
      let y : Controller := { x with
        portConfigPhase := Function.update x.portConfigPhase x.addressingPort .kInitializingDevice
        addressingPort := 0 }
      have hy : PortInv y := hx.release hold rfl rfl
      rw [Function.update_comm hia] at hphase
      exact hy.take rfl (hx.ne_zero_of_phase hwait (by decide)) hphase hturn

theorem oneAddressing : OneAddressing x where
  unique p q hp hq := (hx.only p hp).trans (hx.only q hq).symm
  addressing := hx.only
  nonzero_iff := by
    refine ⟨fun h => ⟨_, hx.turn h⟩, ?_⟩
    rintro ⟨p, hp⟩ hfree
    exact hx.none_in_turn hfree p hp

/-- **Every event is handled**, moves no phase backward and keeps the turn in order. -/
theorem step (hlegal : op.Legal) :
    ∃ x', portMachine.step x op = some x' ∧ Forward x x' ∧ PortInv x' := by
  obtain ⟨x', hstep⟩ : ∃ x', portMachine.step x op = some x' := by
    cases op <;> exact ⟨_, rfl⟩
  refine ⟨x', hstep, ?_⟩
  rcases Controller.step_cases hlegal hstep with ⟨q, st, -, rfl⟩ | h
  · exact ⟨fun _ => Nat.le_refl _, hx.only, hx.turn, hx.zero⟩
  · exact ⟨h.phases.forward, hx.phaseStep h.phases⟩

end PortInv

/-- Whatever events arrive in whatever order, at most one port is between reset and
addressing, it is `addressing_port`, and no port moves backward. -/
theorem one_port_addressing (ports : Fin 256 → PortStatus) (maxSlots : Nat) {ops : List PortOp}
    (hlegal : ∀ op ∈ ops, op.Legal) :
    portMachine.Always OneAddressing (fun x _ x' => Forward x x') (.start ports maxSlots) ops :=
  Machine.always_of_inv (fun _ hx => hx.oneAddressing) (fun _ _ hx h => hx.step h)
    (PortInv.start ports maxSlots) (.of_mem fun op hop _ => hlegal op hop)

/-- A port with a device that has been reset. -/
def PortStatus.attached : PortStatus := ⟨true, true, true, 3⟩

/-- A port whose device has been pulled. -/
def PortStatus.detached : PortStatus := ⟨false, false, false, 0⟩

/-- Port 2 waits until port 1 has its address. -/
theorem one_port_addressing_handOver :
    let ops : List PortOp := [.configurePort 1, .configurePort 2, .portStatusChange 1,
      .commandCompletion .enableSlotCommand 1 0, .commandCompletion .addressDeviceCommand 1 1,
      .portStatusChange 2, .transfer 1 .kSuccess true 1]
    (∀ op ∈ ops, op.Legal) ∧
      portMachine.Always OneAddressing (fun x _ x' => Forward x x')
        (.start (fun _ => .attached) 8) ops :=
  ⟨by decide, one_port_addressing _ _ (by decide)⟩

/-! ## Nobody waits in vain -/

namespace Controller

/-- No connected port waits. -/
def NobodyWaits (x : Controller) : Prop :=
  ∀ p, (x.ports p).isConnected = true → x.portConfigPhase p ≠ .kWaitingAddressed
  deriving Decidable

/-- The lowest waiting port is connected, or none of them is. -/
def NextConnected (x : Controller) : Prop :=
  (∀ i ∈ x.firstWaiting, (x.ports i).isConnected = true) ∨ x.NobodyWaits
  deriving Decidable

/-- A device is plugged into a waiting port while nobody has the turn. -/
def PlugsLate (x : Controller) : PortOp → Prop
  | .status port status => x.addressingPort = 0 ∧ x.portConfigPhase port = .kWaitingAddressed ∧
      status.isConnected = true
  | _ => False

instance decidablePlugsLate (x : Controller) : ∀ op, Decidable (x.PlugsLate op)
  | .status _ _ => inferInstanceAs (Decidable (_ ∧ _ ∧ _))
  | .configurePort _ => isFalse id
  | .portStatusChange _ => isFalse id
  | .transfer _ _ _ _ => isFalse id
  | .commandCompletion _ _ _ => isFalse id

/-- The turn does not end in front of a port that is gone, and no device comes back to a
waiting port after the turn has passed it. -/
def GivesTurn (x : Controller) (op : PortOp) : Prop :=
  (op.EndsTurn x → x.NextConnected) ∧ ¬ x.PlugsLate op
  deriving Decidable

theorem NobodyWaits.update {x x' : Controller} (hx : x.NobodyWaits)
    (hconn : ∀ q, (x'.ports q).isConnected = (x.ports q).isConnected)
    {p : Fin 256} {next : ConfigPhase} (hnext : next ≠ .kWaitingAddressed)
    (hphase : x'.portConfigPhase = Function.update x.portConfigPhase p next) :
    x'.NobodyWaits := by
  intro q hq
  rw [hconn] at hq
  rw [hphase]
  by_cases hqp : q = p
  · subst hqp
    rwa [Function.update_self]
  · rw [Function.update_of_ne hqp]
    exact hx q hq

/-- If the next in line is gone, so are all that wait. -/
theorem NextConnected.nobodyWaits {x : Controller} (h : x.NextConnected)
    (hnext : ∀ i ∈ x.firstWaiting, (x.ports i).isConnected = false) : x.NobodyWaits := by
  rcases h with hconn | hnobody
  · cases hfirst : x.firstWaiting with
    | none => exact fun q _ => none_waiting hfirst q
    | some i =>
      have hgone := hnext i hfirst
      rw [hconn i hfirst] at hgone
      cases hgone
  · exact hnobody

end Controller

/-- When nobody has the turn, no connected port waits for it. -/
def NoneStranded (x : Controller) : Prop :=
  x.addressingPort = 0 → x.NobodyWaits
  deriving Decidable

namespace NoneStranded

variable {x x' : Controller} {op : PortOp}

theorem of_turn {p : Fin 256} (hp : p ≠ 0) (hturn : x.addressingPort = p) : NoneStranded x :=
  fun hfree => absurd (hturn.symm.trans hfree) hp

theorem status (hx : NoneStranded x) {port : Fin 256} {st : PortStatus}
    (hok : ¬ x.PlugsLate (.status port st)) :
    NoneStranded { x with ports := Function.update x.ports port st } := by
  intro hfree q hq hwait
  change (Function.update x.ports port st q).isConnected = true at hq
  by_cases hqp : q = port
  · subst hqp
    rw [Function.update_self] at hq
    exact hok ⟨hfree, hwait, hq⟩
  · rw [Function.update_of_ne hqp] at hq
    exact hx hfree q hq hwait

/-- A handler that ends the turn hands it to the next port if that is still there. -/
theorem handler (hx : NoneStranded x) (hinv : PortInv x) (hok : op.EndsTurn x → x.NextConnected)
    (h : HandlerStep x op x') : NoneStranded x' := by
  obtain ⟨hphases, hconn⟩ := h
  cases hphases with
  | still hphase hturn =>
    intro hfree q hq
    rw [hphase]
    rw [hconn] at hq
    exact hx (hturn.symm.trans hfree) q hq
  | waits p _ hbusy _ _ hturn => exact of_turn hbusy hturn
  | resets p hp _ _ _ hturn => exact of_turn hp hturn
  | moves p next hmove hphase hturn =>
    exact fun hfree => (hx (hturn.symm.trans hfree)).update hconn hmove.spec.2.2.2 hphase
  | ends hop _ hend =>
    cases hend with
    | releases hnext hphase _ =>
      exact fun _ => ((hok hop).nobodyWaits hnext).update hconn (by decide) hphase
    | handsOver i hi _ _ hturn =>
      have hwait := Controller.waiting_of_firstWaiting hi
      exact of_turn (hinv.ne_zero_of_phase hwait (by decide)) hturn

/-- A turn that ends in front of a port that is gone strands the others. -/
theorem not_of_turnEnd (hold : x.portConfigPhase x.addressingPort = .kAddressingDevice)
    (hnext : ¬ x.NextConnected) (hend : TurnEnd x x') (hports : x'.ports = x.ports) :
    ¬ NoneStranded x' := by
  obtain ⟨hfirst, hothers⟩ := not_or.mp hnext
  cases hend with
  | releases _ hphase hturn =>
    intro hx'
    refine hothers fun q hq hwait => hx' hturn q (by rwa [hports]) ?_
    have hqa : q ≠ x.addressingPort := by
      rintro rfl
      rw [hwait] at hold
      cases hold
    rw [hphase, Function.update_of_ne hqa, hwait]
  | handsOver i hi hconn =>
    refine absurd (fun j hj => ?_) hfirst
    cases hi.symm.trans hj
    exact hconn

theorem not_of_not_givesTurn (hok : ¬ x.GivesTurn op) (hstep : portMachine.step x op = some x') :
    ¬ NoneStranded x' := by
  rcases not_and_or.mp hok with h | h
  · obtain ⟨hop, hnext⟩ := Classical.not_imp.mp h
    match op, hop with
    | .commandCompletion .addressDeviceCommand slotId _, ⟨hslot, rfl, hold⟩ =>
      cases hstep
      obtain ⟨hend, hports⟩ := Controller.addressed_step hslot hold
      exact not_of_turnEnd hold hnext hend hports
  · match op, Classical.not_not.mp h with
    | .status port st, ⟨hfree, hwait, hconn⟩ =>
      cases hstep
      intro hx'
      refine hx' hfree port ?_ hwait
      show (Function.update x.ports port st port).isConnected = true
      rw [Function.update_self, hconn]

theorem step (hx : NoneStranded x) (hinv : PortInv x) (hlegal : op.Legal) (hok : x.GivesTurn op)
    (hstep : portMachine.step x op = some x') : NoneStranded x' := by
  rcases Controller.step_cases hlegal hstep with ⟨port, st, rfl, rfl⟩ | h
  · exact hx.status hok.2
  · exact hx.handler hinv hok.1 h

end NoneStranded

/-- Whatever events arrive in whatever order, no connected port is left waiting while
nobody has the turn iff every turn ends with a connected port next in line, or with none
in it, and no device is plugged into a waiting port while nobody has the turn. -/
theorem none_stranded_iff (ports : Fin 256 → PortStatus) (maxSlots : Nat) {ops : List PortOp}
    (hlegal : ∀ op ∈ ops, op.Legal) :
    portMachine.AllStates NoneStranded (.start ports maxSlots) ops ↔
      portMachine.AllSteps Controller.GivesTurn (.start ports maxSlots) ops := by
  have hstart : PortInv (.start ports maxSlots) ∧ NoneStranded (.start ports maxSlots) :=
    ⟨.start ports maxSlots, fun _ _ _ => nofun⟩
  refine Machine.always_iff (fun x (hx : PortInv x ∧ NoneStranded x) => hx.2) ?_ ?_ hstart
    (.of_mem fun op hop _ => hlegal op hop)
  · rintro x op ⟨hinv, hx⟩ hlegal hok
    obtain ⟨x', hstep, -, hinv'⟩ := hinv.step hlegal
    exact ⟨x', hstep, trivial, hinv', hx.step hinv hlegal hok hstep⟩
  · exact fun x op x' _ _ hok hstep _ => NoneStranded.not_of_not_givesTurn hok hstep

/-- Port 2 is unplugged while it waits behind port 1, and plugged in again before its turn. -/
theorem none_stranded_iff_replugged :
    let ops : List PortOp := [.configurePort 1, .configurePort 2, .status 2 .detached,
      .portStatusChange 1, .commandCompletion .enableSlotCommand 1 0, .status 2 .attached,
      .commandCompletion .addressDeviceCommand 1 1]
    (∀ op ∈ ops, op.Legal) ∧
      portMachine.AllSteps Controller.GivesTurn (.start (fun _ => .attached) 8) ops ∧
      portMachine.AllStates NoneStranded (.start (fun _ => .attached) 8) ops := by
  have hok : portMachine.AllSteps Controller.GivesTurn (.start (fun _ => .attached) 8)
      [.configurePort 1, .configurePort 2, .status 2 .detached,
        .portStatusChange 1, .commandCompletion .enableSlotCommand 1 0, .status 2 .attached,
        .commandCompletion .addressDeviceCommand 1 1] := by decide +kernel
  exact ⟨by decide, hok, (none_stranded_iff _ _ (by decide)).mpr hok⟩

/-- Ports 2 and 3 wait behind port 1, and port 2 is unplugged: the turn ends in front of
it, and port 3 waits on. -/
theorem stranded_behind_unplugged :
    let ops : List PortOp := [.configurePort 1, .configurePort 2, .configurePort 3,
      .status 2 .detached, .portStatusChange 1, .commandCompletion .enableSlotCommand 1 0,
      .commandCompletion .addressDeviceCommand 1 1]
    (∀ op ∈ ops, op.Legal) ∧
      ∃ x, portMachine.run (.start (fun _ => .attached) 8) ops = some x ∧
        x.addressingPort = 0 ∧ (x.ports 3).isConnected = true ∧
        x.portConfigPhase 3 = .kWaitingAddressed :=
  ⟨by decide, Machine.exists_run_of_any (by decide +kernel)⟩

end UnagiOs.Xhci
