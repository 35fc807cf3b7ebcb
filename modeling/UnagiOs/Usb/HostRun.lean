import Mathlib.Data.List.Perm.Basic
import UnagiOs.Usb.HostStage

/-!
# Reports or nothing

Whatever the controller reports, in any order, a device is on its way to its reports, or sending
them, or lost.

- `progresses_iff`: a device is not lost at the end of a run exactly if every event of the run led
  on. Nothing is ever tried again: the first request that fails while no other is awaited, of any
  phase, is the last one, and so is the first report that does not come.
- `polls_of_continues`: a run that keeps going gets to the reports within 20 events. The class
  driver then has exactly one interrupt transfer, on a ring that exists, and its events come back
  to the class driver.
-/

namespace UnagiOs.Usb

open List

open Xhci (SetupData ConfigPhase)

namespace Host

variable {h g : Host} {c : ClassDriver} {confs confs' : List EndpointConfig} {phase k : Nat}
  {e : HostEvent}

/-! ## Requests -/

theorem onTransferEvent_single {t : Transfer} (hout : h.outstanding = [t]) (completes : Bool)
    (buf : Nat → UInt8) (len : Int) (rounds : Nat) :
    h.onTransferEvent 0 completes buf len rounds =
      ({ h with outstanding := [] }.onTransferEventReceived t completes buf len rounds).bind
        fun r => r.1.afterTransfer r.2 := by
  unfold onTransferEvent
  rw [hout]
  rfl

theorem afterTransfer_success (hne : h.isInitialized = true → h.portPhase ≠ .kInitializingDevice) :
    h.afterTransfer .kSuccess = some h := by
  rw [afterTransfer, if_neg (not_not.mpr rfl), if_neg (not_and.mpr hne)]

/-- Before the device is initialized there is nothing to do after a transfer. -/
theorem afterTransfer_starting (hinit : h.isInitialized = false) :
    h.afterTransfer .kSuccess = some h :=
  afterTransfer_success fun hi => absurd (hinit.symm.trans hi) Bool.false_ne_true

/-- What one event does in a stage: it leads on or it ends everything. -/
def Steps (h : Host) (k : Nat) (e : HostEvent) : Prop :=
  ∃ h', h.step e = some h' ∧
    ((h.Continues e ∧ ∃ k', h'.Stage k' ∧ (k' < k ∨ k' = 0)) ∨ (¬ h.Continues e ∧ h'.Lost))

section Starting

variable {setup : SetupData} {buffered : Bool} (hs : h.Starting phase setup buffered)
include hs

/-- While there is one transfer, and it is awaited, it has to bring what it is for. -/
theorem Starting.continues_iff {completes : Bool} {buf : Nat → UInt8} {len : Int} {rounds : Nat} :
    h.Continues (.transfer 0 completes buf len rounds) ↔ h.Suits completes buf len rounds := by
  unfold Continues
  rw [hs.outstanding]
  constructor
  · rintro (⟨hsuits, -⟩ | ⟨t', ht', -⟩)
    · exact hsuits
    · nomatch ht'
  · exact fun hsuits => Or.inl ⟨hsuits, _, rfl, Or.inl hs.initialized⟩

/-- The events of the first stages, by what the handler makes of a transfer that is the only one
and completes. -/
theorem Starting.steps
    (hcompletes : ∀ buf len rounds, h.Legal (.transfer 0 true buf len rounds) →
      ∃ g err h', ({ h with outstanding := [] } : Host).onControlCompleted setup buffered buf len
          rounds = some (g, err) ∧ g.afterTransfer err = some h' ∧
        ((h.Suits true buf len rounds ∧ ∃ k', h'.Stage k' ∧ k' < k) ∨
          (¬ h.Suits true buf len rounds ∧ h'.outstanding = [] ∧ h'.commands = 0)))
    {e : HostEvent} (hl : h.Legal e) : h.Steps k e := by
  cases e with
  | commandCompletion => exact absurd hs.commands hl
  | transfer i completes buf len rounds =>
    have hi := hl.1
    rw [hs.outstanding] at hi
    obtain rfl : i = 0 := Nat.lt_one_iff.mp hi
    unfold Steps
    rw [hs.continues_iff]
    show ∃ h', h.onTransferEvent 0 completes buf len rounds = some h' ∧ _
    rw [onTransferEvent_single hs.outstanding]
    cases completes with
    | false =>
      refine ⟨{ h with outstanding := [] }, rfl, Or.inr ⟨fun hsuits => ?_, ?_⟩⟩
      · exact Bool.false_ne_true hsuits.completes
      · exact lost_of_nil rfl hs.commands
    | true =>
      obtain ⟨g, err, h', hg, hh', hcases⟩ := hcompletes buf len rounds hl
      refine ⟨h', ?_, ?_⟩
      · show (({ h with outstanding := [] } : Host).onControlCompleted setup buffered buf len
          rounds).bind _ = _
        rw [hg]
        exact hh'
      · rcases hcases with ⟨hsuits, k', hk', hlt⟩ | ⟨hsuits, hnone, hcommands⟩
        · exact Or.inl ⟨hsuits, k', hk', Or.inl hlt⟩
        · exact Or.inr ⟨hsuits, lost_of_nil hnone hcommands⟩

end Starting

/-- The device descriptor: if it is one, the configuration is asked for. -/
theorem Stage.steps_deviceDescriptor
    (hs : h.Starting 1 (getDescriptorSetup 1 0 kDeviceBufferSize) true)
    (hnone : h.device.classDrivers = fun _ => none) (hl : h.Legal e) : h.Steps 20 e := by
  refine hs.steps (fun buf len rounds _ => ?_) hl
  have hrequest : (getDescriptorSetup 1 0 kDeviceBufferSize).request = 6 := rfl
  unfold onControlCompleted
  rw [if_neg (by rw [hs.initialized]; decide), if_pos hs.phase_eq, if_pos hrequest, if_pos rfl]
  by_cases hbuf : buf 1 = 1
  · let h' : Host := { h with
      device := { h.device with initializePhase := 2 }
      outstanding := [.control (getDescriptorSetup 2 0 kDeviceBufferSize) true] }
    rw [if_pos hbuf]
    refine ⟨h', .kSuccess, h', congrArg some (if_pos hs.ring),
      afterTransfer_starting hs.initialized,
      Or.inl ⟨⟨rfl, fun _ _ => hbuf, fun _ h2 => ?_⟩, 19, ?_, by decide⟩⟩
    · nomatch hs.phase_eq.symm.trans h2
    · exact Stage.configuration { hs with phase_eq := rfl, outstanding := rfl } hnone
  · rw [if_neg hbuf]
    exact ⟨_, .kInvalidPhase, { h with outstanding := [] }, rfl, rfl,
      Or.inr ⟨fun hsuits => hbuf (hsuits.deviceDescriptor hs.initialized hs.phase_eq), rfl,
        hs.commands⟩⟩

/-- The configuration: if there is a driver for it, the device is told to use it. -/
theorem Stage.steps_configuration
    (hs : h.Starting 2 (getDescriptorSetup 2 0 kDeviceBufferSize) true)
    (hnone : h.device.classDrivers = fun _ => none) (hl : h.Legal e) : h.Steps 19 e := by
  refine hs.steps (fun buf len rounds hl => ?_) hl
  have hrequest : (getDescriptorSetup 2 0 kDeviceBufferSize).request = 6 := rfl
  have hphase : ({ h with outstanding := [] } : Host).device.initializePhase = 2 := hs.phase_eq
  unfold onControlCompleted
  rw [if_neg (by rw [hs.initialized]; decide), if_neg (by rw [hphase]; decide), if_pos hphase,
    if_pos hrequest, if_pos rfl]
  by_cases hbuf : buf 1 = configurationType
  · obtain ⟨dev, answer, hreturned, hconfigurable⟩ :=
      (hl.2 hs.initialized hs.phase_eq rfl hbuf).returned
    rw [if_pos hbuf, initializePhase2, hreturned]
    rcases phase2_returned hreturned hnone with
      ⟨rfl, err, rfl, herr⟩ | ⟨value, c, confs, rfl, htaken, hphase3, -⟩
    · -- there is no driver for the device
      obtain rfl := herr hbuf
      refine ⟨_, _, { h with outstanding := [] }, rfl, afterTransfer_starting hs.initialized,
        Or.inr ⟨fun hsuits => ?_, rfl, hs.commands⟩⟩
      obtain ⟨dev', value, hvalue⟩ :=
        Phase2.takes_iff.mp (hsuits.configuration hs.initialized hs.phase_eq)
      nomatch hreturned.symm.trans hvalue
    · let h' : Host := { h with
        device := dev
        outstanding := [.control (setConfigurationSetup value) false] }
      have hready := hconfigurable value rfl
      rw [htaken.endpoints] at hready
      refine ⟨h', .kSuccess, h', congrArg some (if_pos hs.ring),
        afterTransfer_starting hs.initialized,
        Or.inl ⟨⟨rfl, fun _ h1 => ?_, fun _ _ => ?_⟩, 18, ?_, by decide⟩⟩
      · nomatch hs.phase_eq.symm.trans h1
      · exact Phase2.takes_iff.mpr ⟨dev, value, hreturned⟩
      · exact Stage.setConfiguration { hs with phase_eq := hphase3, outstanding := rfl }
          ⟨htaken, hready⟩
  · rw [if_neg hbuf]
    refine ⟨_, .kInvalidPhase, { h with outstanding := [] }, rfl, rfl,
      Or.inr ⟨fun hsuits => ?_, rfl, hs.commands⟩⟩
    obtain ⟨dev, value, hvalue⟩ :=
      Phase2.takes_iff.mp (hsuits.configuration hs.initialized hs.phase_eq)
    rcases phase2_returned hvalue hnone with ⟨-, err, herr, -⟩ | ⟨-, -, -, -, -, -, htype⟩
    · nomatch herr
    · exact hbuf htype

/-! ## Endpoints -/

theorem foldlM_setEndpoint
    (hmine : ∀ conf ∈ confs', g.device.classDrivers conf.epId.number = some c) :
    confs'.foldlM setEndpoint g = some { g with
      drivers := Function.update g.drivers c ((g.drivers c).withEndpoints confs') } := by
  induction confs' generalizing g with
  | nil =>
    show some g = _
    rw [HIDBaseDriver.withEndpoints, foldl_nil, Function.update_eq_self]
  | cons conf confs' ih =>
    rw [foldlM_cons]
    show (g.setEndpoint conf).bind _ = _
    rw [setEndpoint, hmine conf mem_cons_self, Option.map_some, Option.bind_some, ih]
    · dsimp only
      rw [Function.update_self, Function.update_idem]
      rfl
    · exact fun conf' hconf' => hmine conf' (mem_cons_of_mem conf hconf')

/-- Every endpoint gets a ring, and those that were there stay. -/
theorem foldlM_allocTransferRing (haddr : ∀ conf ∈ confs', conf.epId.addr ≠ 0) :
    ∃ rings, confs'.foldlM allocTransferRing g = some { g with transferRings := rings } ∧
      (∀ conf ∈ confs', rings (conf.epId.addr - 1) = true) ∧
      ∀ i, g.transferRings i = true → rings i = true := by
  induction confs' generalizing g with
  | nil => exact ⟨g.transferRings, rfl, nofun, fun _ hi => hi⟩
  | cons conf confs' ih =>
    have hset : ∀ i, g.transferRings i = true →
        setSlot g.transferRings (conf.epId.addr - 1) true i = true := by
      intro i hi
      show (if i = conf.epId.addr - 1 then true else g.transferRings i) = true
      rw [hi, ite_self]
    obtain ⟨rings, hrings, hnew, hold⟩ :=
      ih (g := { g with transferRings := setSlot g.transferRings (conf.epId.addr - 1) true })
        fun conf' hconf' => haddr conf' (mem_cons_of_mem conf hconf')
    refine ⟨rings, ?_, ?_, fun i hi => hold i (hset i hi)⟩
    · rw [foldlM_cons]
      show (g.allocTransferRing conf).bind _ = _
      rw [allocTransferRing, if_neg (haddr conf mem_cons_self)]
      exact hrings
    · intro conf' hconf'
      rcases mem_cons.mp hconf' with rfl | hconf'
      · exact hold _ (if_pos rfl)
      · exact hnew conf' hconf'

/-- The configuration is set: the endpoints get their rings, and the controller a command. -/
theorem Stage.steps_setConfiguration {value : UInt8}
    (hs : h.Starting 3 (setConfigurationSetup value) false) (ho : h.Owned c confs)
    {e : HostEvent} (hl : h.Legal e) : h.Steps 18 e := by
  refine hs.steps (fun buf len rounds _ => ?_) hl
  have hrequest : (setConfigurationSetup value).request = 9 := rfl
  have hphase : ({ h with outstanding := [] } : Host).device.initializePhase = 3 := hs.phase_eq
  unfold onControlCompleted
  rw [if_neg (by rw [hs.initialized]; decide), if_neg (by rw [hphase]; decide),
    if_neg (by rw [hphase]; decide), if_pos hphase, if_pos hrequest, initializePhase3]
  dsimp only
  rw [ho.taken.endpoints, foldlM_setEndpoint (c := c)
    (g := { h with outstanding := [] }) ho.taken.mine, Option.map_some]
  let g : Host := { h with
    outstanding := []
    drivers := Function.update h.drivers c ((h.drivers c).withEndpoints confs)
    isInitialized := true
    device := { h.device with initializePhase := 4 } }
  -- every endpoint gets its transfer ring, then the command is issued
  obtain ⟨rings, hrings, hnew, hold⟩ := foldlM_allocTransferRing (g := g)
    fun conf hconf => Nat.ne_zero_of_lt (ho.configurable.1 conf hconf)
  let h' : Host := { g with
    transferRings := rings
    portPhase := .kConfiguringEndpoints
    commands := h.commands + 1 }
  refine ⟨g, .kSuccess, h', rfl, ?_, Or.inl ⟨⟨rfl, fun _ h1 => ?_, fun _ h2 => ?_⟩, 17, ?_,
    by decide⟩⟩
  · have hconfs : slots g.device.epConfigs g.device.numEpConfigs = confs := ho.taken.endpoints
    rw [afterTransfer, if_neg (not_not.mpr rfl), if_pos ⟨rfl, hs.port⟩, configureEndpoints,
      if_neg (not_or.mpr ⟨hs.slow, Nat.not_lt.mpr hs.fast⟩), hconfs, hrings]
    rfl
  · nomatch hs.phase_eq.symm.trans h1
  · nomatch hs.phase_eq.symm.trans h2
  · refine Stage.endpoints (c := c) { hs with
      ring := hold 0 hs.ring
      taken := { ho.taken with }
      configurable := ho.configurable
      initialized := rfl
      rings := hnew
      drivers := ?_ } rfl hs.waiters rfl (congrArg (· + 1) hs.commands)
    show Function.update h.drivers c ((h.drivers c).withEndpoints confs) = _
    obtain ⟨i, o, heq⟩ := HIDBaseDriver.withEndpoints_frame (HIDBaseDriver.make c) confs
    rw [hs.drivers, heq]
    rfl

/-! ## The protocol -/

/-- The driver has asked for the boot protocol. -/
def askProtocol (c : ClassDriver) (g : Host) : Host :=
  { g with
    drivers := Function.update g.drivers c { g.drivers c with initializePhase := 1 }
    eventWaiters := g.eventWaiters.put (setProtocolSetup c.interfaceNumber.toNat) c
    outstanding := g.outstanding ++ [protocolTransfer c] }

theorem call_onEndpointsConfigured (hring : g.transferRings 0 = true)
    (hindex : (g.drivers c).interfaceIndex = c.interfaceNumber.toNat) :
    g.call c (g.drivers c).onEndpointsConfigured = some (askProtocol c g, .kSuccess) := by
  show some (Host.control _ (setProtocolSetup (g.drivers c).interfaceIndex) false (some c)) = _
  rw [hindex]
  exact congrArg some (if_pos hring)

/-- The boot protocol is asked for once for each number among the endpoints. -/
theorem foldlM_endpointsConfiguredRound (ns : List Nat) (hring : g.transferRings 0 = true)
    (hindex : (g.drivers c).interfaceIndex = c.interfaceNumber.toNat)
    (hothers : ∀ i c', g.device.classDrivers i = some c' → c' = c) :
    ns.foldlM endpointsConfiguredRound (g, .kSuccess) =
      some ((askProtocol c)^[ns.countP fun i => (g.device.classDrivers i).isSome] g,
        .kSuccess) := by
  induction ns generalizing g with
  | nil => rfl
  | cons i ns ih =>
    rw [foldlM_cons]
    show (endpointsConfiguredRound (g, .kSuccess) i).bind _ = _
    rw [endpointsConfiguredRound, if_neg (not_not.mpr rfl)]
    dsimp only
    cases hi : g.device.classDrivers i with
    | none =>
      rw [countP_cons_of_neg (by rw [hi]; decide)]
      exact ih hring hindex hothers
    | some c' =>
      obtain rfl := hothers i c' hi
      rw [countP_cons_of_pos (by rw [hi]; rfl), Function.iterate_succ_apply]
      dsimp only
      rw [call_onEndpointsConfigured hring hindex]
      refine ih (g := askProtocol c' g) hring ?_ hothers
      show (Function.update g.drivers c' _ c').interfaceIndex = _
      rw [Function.update_self]
      exact hindex

theorem Running.askProtocol (hr : h.Running c confs phase) :
    (askProtocol c h).Running c confs 1 :=
  { hr with drivers := hr.next 1 }

/-- After the requests; the map of waiters leads to the driver, however often it is put there. -/
theorem Running.iterate_askProtocol (hr : h.Running c confs phase)
    (hwaiters : h.eventWaiters = .empty) (k : Nat) :
    let g := (Host.askProtocol c)^[k + 1] h
    g.Running c confs 1 ∧ g.portPhase = h.portPhase ∧ g.commands = h.commands ∧
      g.outstanding = h.outstanding ++ List.replicate (k + 1) (protocolTransfer c) ∧
      g.eventWaiters.Compact ∧
      g.eventWaiters.get (setProtocolSetup c.interfaceNumber.toNat) = some c := by
  induction k with
  | zero =>
    refine ⟨hr.askProtocol, rfl, rfl, rfl, ?_, ?_⟩
    · show (h.eventWaiters.put _ c).Compact
      rw [hwaiters]
      exact ArrayMap.compact_empty.put
    · show (h.eventWaiters.put _ c).get _ = some c
      rw [hwaiters, ArrayMap.get_put_self ArrayMap.compact_empty (by decide)]
      rfl
  | succ k ih =>
    obtain ⟨hr', hport, hcommands, hout, hcompact, hget⟩ := ih
    dsimp only
    rw [Function.iterate_succ_apply']
    refine ⟨hr'.askProtocol, hport, hcommands, ?_, hcompact.put, ?_⟩
    · show Host.outstanding _ ++ [protocolTransfer c] = _
      rw [hout, append_assoc, ← replicate_succ']
    · exact ArrayMap.get_put_of_some hcompact hget

/-- The command completes: the driver asks for the boot protocol, once for each endpoint number. -/
theorem Stage.steps_endpoints (hr : h.Running c confs 0)
    (hport : h.portPhase = .kConfiguringEndpoints) (hwaiters : h.eventWaiters = .empty)
    (hout : h.outstanding = []) (hcommands : h.commands = 1) (hl : h.Legal e) : h.Steps 17 e := by
  cases e with
  | transfer i completes buf len rounds =>
    have hi := hl.1
    rw [hout] at hi
    nomatch hi
  | commandCompletion =>
    -- the endpoints have a number, so there is at least one request
    have hcount : ∃ k, ((List.range 16).countP fun i => (h.device.classDrivers i).isSome) = k + 1 ∧
        k < 16 := by
      obtain ⟨conf, hconf, -⟩ := hr.configurable.2
      have hmine := hr.taken.mine conf hconf
      have hle := countP_le_length (p := fun i => (h.device.classDrivers i).isSome)
        (l := List.range 16)
      have hpos : 0 < (List.range 16).countP fun i => (h.device.classDrivers i).isSome :=
        countP_pos_iff.mpr ⟨conf.epId.number,
          mem_range.mpr (hr.taken.numbers conf hconf), by rw [hmine]; rfl⟩
      rw [length_range] at hle
      exact ⟨_, (Nat.succ_pred_eq_of_pos hpos).symm, Nat.lt_of_lt_of_le (Nat.pred_lt hpos.ne') hle⟩
    obtain ⟨k, hk, hlt⟩ := hcount
    let g : Host := { h with commands := 0 }
    have hg : g.Running c confs 0 := { hr with }
    obtain ⟨hr', hport', hcommands', hout', -, hget⟩ := hg.iterate_askProtocol hwaiters k
    have hindex : (g.drivers c).interfaceIndex = c.interfaceNumber.toNat := by
      obtain ⟨i, o, heq⟩ := HIDBaseDriver.withEndpoints_frame (HIDBaseDriver.make c) confs
      rw [hg.driver, heq]
      rfl
    have hrequests := foldlM_endpointsConfiguredRound (List.range 16) hg.ring hindex hg.taken.others
    rw [show ((List.range 16).countP fun i => (g.device.classDrivers i).isSome) = k + 1 from hk]
      at hrequests
    refine ⟨{ (Host.askProtocol c)^[k + 1] g with portPhase := .kConfigured }, ?_,
      Or.inl ⟨trivial, k + 1, ?_, ?_⟩⟩
    · show h.onCommandCompletion = _
      rw [onCommandCompletion, if_neg (by rw [hcommands]; decide)]
      dsimp only
      rw [if_neg (not_not.mpr hport), hcommands]
      show (g.onEndpointsConfigured).map _ = _
      rw [onEndpointsConfigured, hrequests]
      rfl
    · refine Stage.protocol { hr' with port := rfl, waiter := hget, commands := hcommands' } ?_ hlt
      refine hout'.trans ?_
      show h.outstanding ++ _ = _
      rw [hout, nil_append]
    · omega

/-! ## Reports -/

/-- The transfer of the reports is issued. -/
theorem Running.interruptIn (hr : h.Running c confs phase) :
    h.interruptIn (h.drivers c).epInterruptIn (h.drivers c).inPacketSize =
      some ({ h with outstanding := h.outstanding ++ [reportTransfer c confs] }, .kSuccess) := by
  obtain ⟨haddr, -, hring, -⟩ := hr.report_endpoint
  rw [Host.interruptIn, if_neg haddr, if_pos hring, hr.report_eq]

/-- The answer about the protocol goes to the driver. -/
theorem Configured.protocolCompleted (hr : h.Configured c confs phase)
    (buf : Nat → UInt8) (len : Int) (rounds : Nat) :
    h.onControlCompleted (setProtocolSetup c.interfaceNumber.toNat) false buf len rounds =
      h.call c (h.drivers c).onControlCompleted := by
  rw [Host.onControlCompleted, if_pos hr.initialized, hr.waiter]

/-- The protocol is set; the first time, the driver goes on to the reports. -/
theorem Running.onControlCompleted (hr : h.Running c confs 1) :
    h.call c (h.drivers c).onControlCompleted = some ({ h with
      drivers := Function.update h.drivers c { h.drivers c with initializePhase := 2 }
      outstanding := h.outstanding ++ [reportTransfer c confs] }, .kSuccess) := by
  have hphase : (h.drivers c).initializePhase = 1 := by rw [hr.driver]
  let g : Host := { h with
    drivers := Function.update h.drivers c { h.drivers c with initializePhase := 2 } }
  have hg : g.Running c confs 2 := { hr with drivers := hr.next 2 }
  have hdriver : g.drivers c = { h.drivers c with initializePhase := 2 } :=
    Function.update_self _ _ _
  have hin := hg.interruptIn
  rw [hdriver] at hin
  rw [HIDBaseDriver.onControlCompleted, if_pos hphase]
  exact hin

theorem Running.onControlCompleted_again (hr : h.Running c confs 2) :
    h.call c (h.drivers c).onControlCompleted = some (h, .kNotImplemented) := by
  have hphase : (h.drivers c).initializePhase ≠ 1 := by
    rw [hr.driver]
    exact Nat.succ_ne_self 1
  rw [HIDBaseDriver.onControlCompleted, if_neg hphase, call, Function.update_eq_self]

/-- A report has come, and the next one is waited for. -/
theorem Running.onInterruptCompleted (hr : h.Running c confs phase) :
    h.onInterruptCompleted (h.drivers c).epInterruptIn =
      some ({ h with outstanding := h.outstanding ++ [reportTransfer c confs] }, .kSuccess) := by
  obtain ⟨-, hin, -, hback⟩ := hr.report_endpoint
  rw [Host.onInterruptCompleted, hback]
  dsimp only
  rw [HIDBaseDriver.onInterruptCompleted, if_pos hin, call]
  dsimp only
  rw [Function.update_eq_self]
  exact hr.interruptIn

/-- The driver has had its answer about the protocol. -/
theorem Running.not_awaits_protocol (hr : h.Running c confs 2) :
    ¬ h.Awaits (protocolTransfer c) := by
  rintro (hinit | ⟨c', -, hphase⟩)
  · exact Bool.false_ne_true (hinit.symm.trans hr.initialized)
  · exact Nat.succ_ne_self 1 (hr.eq_of_phase Nat.one_pos hphase).2

theorem Running.suits (hr : h.Running c confs phase) (buf : Nat → UInt8) (len : Int)
    (rounds : Nat) : h.Suits true buf len rounds :=
  ⟨rfl, fun hi => absurd (hr.initialized.symm.trans hi) Bool.noConfusion,
    fun hi => absurd (hr.initialized.symm.trans hi) Bool.noConfusion⟩

theorem Configured.afterTransfer (hr : h.Configured c confs phase) :
    h.afterTransfer .kSuccess = some h :=
  afterTransfer_success fun _ => hr.port.trans_ne ConfigPhase.noConfusion

/-- The first answer about the protocol that completes starts the reports. -/
theorem Stage.steps_protocol {n : Nat} (hr : h.Configured c confs 1)
    (hout : h.outstanding = List.replicate (n + 1) (protocolTransfer c)) (hn : n < 16)
    (hl : h.Legal e) : h.Steps (n + 1) e := by
  cases e with
  | commandCompletion => exact absurd hr.commands hl
  | transfer i completes buf len rounds =>
    have hi : i < n + 1 := by
      have hi := hl.1
      rwa [hout, length_replicate] at hi
    have hget : h.outstanding[i]? = some (protocolTransfer c) := by
      rw [hout, getElem?_replicate, if_pos hi]
    have herase : h.outstanding.eraseIdx i = List.replicate n (protocolTransfer c) := by
      rw [hout, eraseIdx_replicate, if_pos hi, Nat.add_sub_cancel]
    have hawaits : h.Awaits (protocolTransfer c) := Or.inr ⟨c, hr.waiter, by rw [hr.driver]⟩
    unfold Steps
    show ∃ h', h.onTransferEvent i completes buf len rounds = some h' ∧ _
    rw [onTransferEvent, hget, herase, Option.bind_some]
    cases completes with
    | true =>
      -- the answer of one is enough: the driver has all it waits for
      let g : Host := { h with outstanding := List.replicate n (protocolTransfer c) }
      have hg : g.Configured c confs 1 := { hr with }
      let h' : Host := { g with
        drivers := Function.update g.drivers c { g.drivers c with initializePhase := 2 }
        outstanding := g.outstanding ++ [reportTransfer c confs] }
      have hr' : h'.Configured c confs 2 := { hg with drivers := hg.next 2 }
      refine ⟨h', ?_, Or.inl ⟨Or.inl ⟨hr.suits buf len rounds, _, hget, hawaits⟩, 0, ?_,
        Or.inr rfl⟩⟩
      · show (g.onControlCompleted _ false buf len rounds).bind _ = _
        rw [hg.protocolCompleted, hg.onControlCompleted, Option.bind_some]
        exact hr'.afterTransfer
      · refine Stage.reports hr' ?_ ?_
        · intro t ht
          rcases mem_append.mp ht with ht | ht
          · exact Or.inl (mem_replicate.mp ht).2
          · exact Or.inr (mem_singleton.mp ht)
        · show (List.replicate n (protocolTransfer c) ++ [reportTransfer c confs]).filter _ = _
          rw [filter_append, filter_replicate]
          rfl
    | false =>
      refine ⟨{ h with outstanding := List.replicate n (protocolTransfer c) }, rfl, ?_⟩
      cases n with
      | zero =>
        refine Or.inr ⟨?_, lost_of_nil rfl hr.commands⟩
        rintro (⟨hsuits, -⟩ | ⟨t, ht, -⟩)
        · exact Bool.false_ne_true hsuits.completes
        · rw [herase] at ht
          exact not_mem_nil ht
      | succ n =>
        refine Or.inl ⟨Or.inr ⟨protocolTransfer c, ?_, hawaits⟩, n + 1, ?_, ?_⟩
        · rw [herase]
          exact mem_replicate.mpr ⟨Nat.succ_ne_zero n, rfl⟩
        · exact Stage.protocol { hr with } rfl (by omega)
        · exact Or.inl (Nat.lt_succ_self _)

/-- A report asks for the next one, and one that fails is the last. -/
theorem Stage.steps_reports (hr : h.Configured c confs 2)
    (hmem : ∀ t ∈ h.outstanding, t = protocolTransfer c ∨ t = reportTransfer c confs)
    (hout : h.outstanding.filter Transfer.isInterrupt = [reportTransfer c confs]) (hl : h.Legal e) :
    h.Steps k e := by
  cases e with
  | commandCompletion => exact absurd hr.commands hl
  | transfer i completes buf len rounds =>
    have hi := hl.1
    obtain ⟨t, ht⟩ : ∃ t, t = h.outstanding[i] := ⟨_, rfl⟩
    have hget : h.outstanding[i]? = some t := by rw [getElem?_eq_getElem hi, ht]
    have hperm := (getElem_cons_eraseIdx_perm hi).filter Transfer.isInterrupt
    rw [hout, ← ht] at hperm
    have hrest : ∀ t ∈ h.outstanding.eraseIdx i,
        t = protocolTransfer c ∨ t = reportTransfer c confs :=
      fun t ht => hmem t (mem_of_mem_eraseIdx ht)
    let g : Host := { h with outstanding := h.outstanding.eraseIdx i }
    have hg : g.Configured c confs 2 := { hr with }
    unfold Steps
    show ∃ h', h.onTransferEvent i completes buf len rounds = some h' ∧ _
    rw [onTransferEvent, hget, Option.bind_some]
    rcases hmem t (ht ▸ getElem_mem hi) with rfl | rfl
    · -- one more answer about the protocol changes nothing
      have hfilter : (h.outstanding.eraseIdx i).filter Transfer.isInterrupt =
          [reportTransfer c confs] := perm_singleton.mp hperm
      refine ⟨g, ?_, Or.inl ⟨Or.inr ⟨_, mem_of_filter_isInterrupt hfilter, trivial⟩, 0,
        Stage.reports hg hrest hfilter, Or.inr rfl⟩⟩
      cases completes with
      | false => rfl
      | true =>
        show (g.onControlCompleted _ false buf len rounds).bind _ = _
        rw [hg.protocolCompleted, hg.onControlCompleted_again]
        rfl
    · have hfilter : (h.outstanding.eraseIdx i).filter Transfer.isInterrupt = [] :=
        perm_nil.mp ((perm_cons _).mp hperm)
      cases completes with
      | true =>
        let h' : Host := { g with outstanding := g.outstanding ++ [reportTransfer c confs] }
        have hr' : h'.Configured c confs 2 := { hg with }
        refine ⟨h', ?_, Or.inl ⟨Or.inl ⟨hr.suits buf len rounds, _, hget, trivial⟩, 0, ?_,
          Or.inr rfl⟩⟩
        · rw [hr.report_eq]
          show (g.onInterruptCompleted (g.drivers c).epInterruptIn).bind _ = _
          rw [hg.onInterruptCompleted, Option.bind_some]
          exact hr'.afterTransfer
        · refine Stage.reports hr' ?_ ?_
          · intro t ht
            rcases mem_append.mp ht with ht | ht
            · exact hrest t ht
            · exact Or.inr (mem_singleton.mp ht)
          · show (h.outstanding.eraseIdx i ++ [reportTransfer c confs]).filter _ = _
            rw [filter_append, hfilter]
            rfl
      | false =>
        -- what is left is of the protocol, and nobody waits for that
        have hlost : ∀ t ∈ h.outstanding.eraseIdx i, ¬ h.Awaits t := by
          intro t ht hawaits
          rcases hrest t ht with rfl | rfl
          · exact hr.not_awaits_protocol hawaits
          · have hin : reportTransfer c confs ∈
                (h.outstanding.eraseIdx i).filter Transfer.isInterrupt :=
              mem_filter.mpr ⟨ht, rfl⟩
            rw [hfilter] at hin
            exact not_mem_nil hin
        refine ⟨g, rfl, Or.inr ⟨?_, hr.commands, hlost⟩⟩
        rintro (⟨hsuits, -⟩ | ⟨t, ht, hawaits⟩)
        · exact Bool.false_ne_true hsuits.completes
        · exact hlost t ht hawaits

/-! ## Whole runs -/

theorem Stage.steps (hs : h.Stage k) (hl : h.Legal e) : h.Steps k e := by
  cases hs with
  | deviceDescriptor hs hnone => exact steps_deviceDescriptor hs hnone hl
  | configuration hs hnone => exact steps_configuration hs hnone hl
  | setConfiguration hs ho => exact steps_setConfiguration hs ho hl
  | endpoints hr hport hwaiters hout hcommands =>
    exact steps_endpoints hr hport hwaiters hout hcommands hl
  | protocol hr hout hn => exact steps_protocol hr hout hn hl
  | reports hr hmem hout => exact steps_reports hr hmem hout hl

/-- A run from a stage leads to a later one, and from 0 on the stage stays, or all is lost. -/
theorem Stage.run (hs : h.Stage k) {es : List HostEvent} (hl : hostMachine.AllSteps Legal h es) :
    ∃ h', hostMachine.run h es = some h' ∧
      ((hostMachine.AllSteps Continues h es ∧ ∃ k', h'.Stage k' ∧ (k' + es.length ≤ k ∨ k' = 0)) ∨
        (¬ hostMachine.AllSteps Continues h es ∧ h'.Lost)) := by
  induction es generalizing h k with
  | nil => exact ⟨h, rfl, Or.inl ⟨trivial, k, hs, Or.inl (Nat.le_refl k)⟩⟩
  | cons e es ih =>
    obtain ⟨g, hg, hcases⟩ := hs.steps hl.1
    rw [Machine.run_cons (M := hostMachine) hg]
    rcases hcases with ⟨hcontinues, k', hk', hlt⟩ | ⟨hcontinues, hlost⟩
    · obtain ⟨h', hrun, hrest⟩ := ih hk' (hl.2 g hg)
      have hsteps : hostMachine.AllSteps Continues h (e :: es) ↔
          hostMachine.AllSteps Continues g es := by
        refine ⟨fun hall => hall.2 g hg, fun hall => ⟨hcontinues, fun g' hg' => ?_⟩⟩
        cases hg.symm.trans hg'
        exact hall
      rw [hsteps]
      refine ⟨h', hrun, ?_⟩
      rcases hrest with ⟨hall, j, hj, hle⟩ | hlost
      · refine Or.inl ⟨hall, j, hj, ?_⟩
        rw [length_cons]
        omega
      · exact Or.inr hlost
    · have hstep : ∀ s i, Lost s → Legal s i → ∃ s', hostMachine.step s i = some s' ∧ Lost s' :=
        fun s i hs hl => hs.step hl
      obtain ⟨h', hrun, hlost'⟩ := Machine.run_of_inv hstep hlost (hl.2 g hg)
      exact ⟨h', hrun, Or.inr ⟨fun hall => hcontinues hall.1, hlost'⟩⟩

theorem stage_initializeDevice {speed : Nat} (hslow : speed ≠ 0)
    (hfast : speed ≤ Xhci.kSuperSpeedPlus) : (initializeDevice speed).Stage 20 :=
  Stage.deviceDescriptor ⟨⟨hslow, hfast, rfl⟩, rfl, rfl, rfl, rfl, rfl, rfl, rfl⟩ rfl

end Host

/-- On a port with a known speed, and if every configuration that has a driver also has an
interrupt IN endpoint (`Host.Legal`), no handler goes astray whatever the controller reports, and in
the end the device is on its way, or sending reports, exactly if every event led on. -/
theorem progresses_iff {speed : Nat} (hslow : speed ≠ 0) (hfast : speed ≤ Xhci.kSuperSpeedPlus)
    {es : List HostEvent} (hl : hostMachine.AllSteps Host.Legal (Host.initializeDevice speed) es) :
    ∃ h, hostMachine.run (Host.initializeDevice speed) es = some h ∧
      (h.Progresses ↔
        hostMachine.AllSteps Host.Continues (Host.initializeDevice speed) es) := by
  obtain ⟨h, hrun, hcases⟩ := (Host.stage_initializeDevice hslow hfast).run hl
  refine ⟨h, hrun, ?_⟩
  rcases hcases with ⟨hall, k, hk, -⟩ | ⟨hall, hlost⟩
  · exact ⟨fun _ => hall, fun _ => hk.progresses⟩
  · exact ⟨fun hp => absurd hp hlost.not_progresses, fun h => absurd h hall⟩

/-- A transfer that ends well. -/
def sampleTransfer (data : List UInt8) : HostEvent :=
  .transfer 0 true (bytesOf data) data.length 20

/-- The device descriptor arrives, the configuration does not. -/
theorem progresses_iff_lost :
    ∃ h, hostMachine.run (Host.initializeDevice 3)
        [sampleTransfer [18, 1], .transfer 0 false (bytesOf []) 0 0] = some h ∧
      ¬ h.Progresses := by
  have hl : hostMachine.AllSteps Host.Legal (Host.initializeDevice 3)
      [sampleTransfer [18, 1], .transfer 0 false (bytesOf []) 0 0] := by decide
  obtain ⟨h, hrun, hiff⟩ := progresses_iff (by decide) (by decide) hl
  exact ⟨h, hrun, fun hp => absurd (hiff.mp hp) (by decide)⟩

/-- From the 20th event on, a device that has got that far, again on a port with a known speed and
with an interrupt IN endpoint, sends its reports to a driver. -/
theorem polls_of_continues {speed : Nat} (hslow : speed ≠ 0) (hfast : speed ≤ Xhci.kSuperSpeedPlus)
    {es : List HostEvent} (hl : hostMachine.AllSteps Host.Legal (Host.initializeDevice speed) es)
    (hall : hostMachine.AllSteps Host.Continues (Host.initializeDevice speed) es)
    (hlen : 20 ≤ es.length) :
    ∃ h c, hostMachine.run (Host.initializeDevice speed) es = some h ∧ h.Polls c := by
  obtain ⟨h, hrun, hcases⟩ := (Host.stage_initializeDevice hslow hfast).run hl
  rcases hcases with ⟨-, k, hk, hle⟩ | ⟨hnot, -⟩
  · obtain rfl : k = 0 := by omega
    have hp := hk.progresses
    cases hk with
    | @reports c confs hr hmem hout =>
      exact ⟨h, c, hrun, hp.polls c (by rw [hr.driver])⟩
  · exact absurd hall hnot

/-- The configuration has a mouse, which then moves. -/
theorem polls_of_continues_mouse :
    ∃ h c, hostMachine.run (Host.initializeDevice 3)
        ([sampleTransfer [18, 1], sampleTransfer (sampleHead :: sampleDescriptors).flatten,
          sampleTransfer [], .commandCompletion, sampleTransfer []] ++
          List.replicate 15 (sampleTransfer [0, 1, 1])) = some h ∧ h.Polls c :=
  polls_of_continues (by decide) (by decide) (by decide) (by decide) (by decide)

end UnagiOs.Usb
