import UnagiOs.Theory.Machine
import UnagiOs.Usb.ConfigBlock
import UnagiOs.Usb.Host

/-!
# The states of a device on its way to its reports

An event *leads on* (`Continues`) if it is awaited and brings what its transfer is for, or if
another transfer is awaited. `Progresses` says that something is awaited, and that a driver which
has been told of its protocol has one interrupt transfer on a ring that there is.

`Stage` lists the states in which that is so, each with the number of events until the reports come
at the latest, and `Lost` those in which nothing is awaited. What is lost stays lost
(`Lost.step`).
-/

namespace UnagiOs.Usb

open List

variable {r : Phase2} {b : Nat → UInt8}

open Xhci (SetupData ConfigPhase)

/-! ## Going on -/

/-- Endpoints besides the control pipe, among them an interrupt IN endpoint, which is the one that
brings the reports. -/
def Configurable (confs : List EndpointConfig) : Prop :=
  (∀ conf ∈ confs, 1 < conf.epId.addr) ∧
    ∃ conf ∈ confs, conf.epType = .kInterrupt ∧ conf.epId.isIn = true

instance Configurable.decidable (confs : List EndpointConfig) : Decidable (Configurable confs) :=
  inferInstanceAs (Decidable (_ ∧ _))

/-- The configuration has a driver. -/
def Phase2.Takes : Phase2 → Prop
  | .returned _ (.setConfiguration _) => True
  | _ => False

/-- The configuration has been read, and if it has a driver, its endpoints can be used. -/
def Phase2.Usable : Phase2 → Prop
  | .returned dev (.setConfiguration _) => Configurable (slots dev.epConfigs dev.numEpConfigs)
  | .returned _ (.error _) => True
  | _ => False

instance Phase2.Takes.decidable : ∀ r : Phase2, Decidable r.Takes
  | .start _ | .find _ _ | .collect _ _ _ _ | .fault | .returned _ (.error _) => isFalse id
  | .returned _ (.setConfiguration _) => isTrue trivial

instance Phase2.Usable.decidable : ∀ r : Phase2, Decidable r.Usable
  | .start _ | .find _ _ | .collect _ _ _ _ | .fault => isFalse id
  | .returned _ (.error _) => isTrue trivial
  | .returned dev (.setConfiguration _) =>
    Configurable.decidable (slots dev.epConfigs dev.numEpConfigs)

theorem Phase2.takes_iff : r.Takes ↔ ∃ dev value, r = .returned dev (.setConfiguration value) := by
  constructor
  · intro h
    cases r with
    | returned dev answer =>
      cases answer with
      | error e => nomatch h
      | setConfiguration value => exact ⟨dev, value, rfl⟩
    | _ => nomatch h
  · rintro ⟨dev, value, rfl⟩
    exact trivial

theorem Phase2.Usable.returned (h : r.Usable) :
    ∃ dev answer, r = .returned dev answer ∧ ∀ value, answer = .setConfiguration value →
      Configurable (slots dev.epConfigs dev.numEpConfigs) := by
  cases r with
  | returned dev answer =>
    refine ⟨dev, answer, rfl, ?_⟩
    rintro value rfl
    exact h
  | _ => nomatch h

namespace Host

/-- The handler of the event of this transfer issues another request. -/
def Awaits (h : Host) : Transfer → Prop
  | .interruptIn _ _ => True
  | .control setup _ => h.isInitialized = false ∨
      ∃ c, h.eventWaiters.get setup = some c ∧ (h.drivers c).initializePhase = 1

instance Awaits.decidable (h : Host) : ∀ t, Decidable (h.Awaits t)
  | .interruptIn _ _ => isTrue trivial
  | .control setup _ => inferInstanceAs (Decidable (h.isInitialized = false ∨
      ∃ c, c ∈ h.eventWaiters.get setup ∧ (h.drivers c).initializePhase = 1))

/-- The event is of a transfer or a command that there is. A configuration can be read to its end,
and if there is a driver for it, its endpoints can be used: none of them is the control pipe, and
one is an interrupt IN endpoint. -/
def Legal (h : Host) : HostEvent → Prop
  | .transfer i completes buf len rounds => i < h.outstanding.length ∧
      (h.isInitialized = false → h.device.initializePhase = 2 → completes = true →
        buf 1 = configurationType → (phase2 buf len h.device rounds).Usable)
  | .commandCompletion => h.commands ≠ 0

instance Legal.decidable (h : Host) : ∀ e, Decidable (h.Legal e)
  | .transfer _ _ _ _ _ => inferInstanceAs (Decidable (_ ∧ _))
  | .commandCompletion => inferInstanceAs (Decidable (h.commands ≠ 0))

/-- The transfer brings what it was for. -/
structure Suits (h : Host) (completes : Bool) (buf : Nat → UInt8) (len : Int) (rounds : Nat) :
    Prop where
  completes : completes = true
  deviceDescriptor : h.isInitialized = false → h.device.initializePhase = 1 → buf 1 = 1
  configuration : h.isInitialized = false → h.device.initializePhase = 2 →
    (phase2 buf len h.device rounds).Takes

instance Suits.decidable (h : Host) (completes : Bool) (buf : Nat → UInt8) (len : Int)
    (rounds : Nat) : Decidable (h.Suits completes buf len rounds) :=
  decidable_of_iff (completes = true ∧
      (h.isInitialized = false → h.device.initializePhase = 1 → buf 1 = 1) ∧
      (h.isInitialized = false → h.device.initializePhase = 2 →
        (phase2 buf len h.device rounds).Takes))
    ⟨fun h => ⟨h.1, h.2.1, h.2.2⟩, fun h => ⟨h.1, h.2, h.3⟩⟩

/-- The event is awaited and brings what it should, or another transfer is awaited. -/
def Continues (h : Host) : HostEvent → Prop
  | .transfer i completes buf len rounds =>
    (h.Suits completes buf len rounds ∧ ∃ t, h.outstanding[i]? = some t ∧ h.Awaits t) ∨
      ∃ t ∈ h.outstanding.eraseIdx i, h.Awaits t
  | .commandCompletion => True

instance Continues.decidable (h : Host) : ∀ e, Decidable (h.Continues e)
  | .transfer i completes buf len rounds => inferInstanceAs (Decidable
      ((h.Suits completes buf len rounds ∧ ∃ t, t ∈ h.outstanding[i]? ∧ h.Awaits t) ∨
        ∃ t ∈ h.outstanding.eraseIdx i, h.Awaits t))
  | .commandCompletion => isTrue trivial

/-- The class driver has one interrupt transfer, on a ring of the device, and its events lead back
to the class driver. -/
structure Polls (h : Host) (c : ClassDriver) : Prop where
  phase : (h.drivers c).initializePhase = 2
  transfer : h.outstanding.filter Transfer.isInterrupt =
    [.interruptIn (h.drivers c).epInterruptIn (h.drivers c).inPacketSize]
  ring : h.transferRings ((h.drivers c).epInterruptIn.addr - 1) = true
  back : h.device.classDrivers (h.drivers c).epInterruptIn.number = some c

/-- Something is awaited, and a driver that has got its answer polls. -/
structure Progresses (h : Host) : Prop where
  awaited : h.commands ≠ 0 ∨ ∃ t ∈ h.outstanding, h.Awaits t
  polls : ∀ c, (h.drivers c).initializePhase = 2 → h.Polls c
  interrupts : (h.outstanding.filter Transfer.isInterrupt).length ≤ 1

end Host

/-! ## The device after the configuration -/

/-- The endpoints and the drivers of a device. -/
structure Device.Taken (dev : Device) (c : ClassDriver) (confs : List EndpointConfig) : Prop where
  endpoints : slots dev.epConfigs dev.numEpConfigs = confs
  numbers : ∀ conf ∈ confs, conf.epId.number < 16
  mine : ∀ conf ∈ confs, dev.classDrivers conf.epId.number = some c
  others : ∀ i c', dev.classDrivers i = some c' → c' = c

theorem EndpointID.number_make (n : Nat) (dirIn : Bool) : (EndpointID.make n dirIn).number = n := by
  show (n <<< 1 ||| dirIn.toNat) >>> 1 = n
  rw [Nat.shiftRight_or_distrib, Nat.shiftLeft_shiftRight]
  cases dirIn with
  | false => exact Nat.or_zero n
  | true => exact Nat.or_zero n

theorem number_endpointAt_lt {p : Nat} {conf : EndpointConfig} (h : endpointAt b p = some conf) :
    conf.epId.number < 16 := by
  unfold endpointAt endpointConfig at h
  split at h
  · obtain rfl := Option.some.inj h
    show (EndpointID.make _ _).number < 16
    rw [EndpointID.number_make]
    exact Nat.mod_lt _ (by decide)
  · nomatch h

/-- What `InitializePhase2` returns: an error, and then the device is as it was, or the request to
set the configuration, with a driver for all endpoints. -/
theorem phase2_returned {len : Int} {dev dev' : Device} {n : Nat} {answer : Answer}
    (h : phase2 b len dev n = .returned dev' answer) (hnone : dev.classDrivers = fun _ => none) :
    (dev' = dev ∧ ∃ e, answer = .error e ∧ (b 1 = configurationType → e = .kSuccess)) ∨
      ∃ value c confs, answer = .setConfiguration value ∧ dev'.Taken c confs ∧
        dev'.initializePhase = 3 ∧ b 1 = configurationType := by
  have hreached := reached_phase2 b len dev n
  rw [h] at hreached
  cases hreached with
  | invalid htype => exact Or.inl ⟨rfl, _, rfl, fun h => absurd h htype⟩
  | out htype hn hout => exact Or.inl ⟨rfl, _, rfl, fun _ => rfl⟩
  | @done k j driver htype hk hj hdone =>
    refine Or.inr ⟨_, driver, found b k j, rfl, ⟨?_, ?_, ?_, ?_⟩, rfl, htype⟩
    · show slots (dev.withEndpoints driver (found b k j)).epConfigs
        (dev.withEndpoints driver (found b k j)).numEpConfigs = _
      rw [Device.numEpConfigs_withEndpoints, Device.slots_withEndpoints]
    · intro conf hconf
      obtain ⟨i, -, hi⟩ := mem_filterMap.mp hconf
      exact number_endpointAt_lt hi
    · exact fun conf hconf => Device.classDrivers_withEndpoints hconf
    · intro i c' hc'
      by_cases hi : ∃ conf ∈ found b k j, conf.epId.number = i
      · obtain ⟨conf, hconf, rfl⟩ := hi
        exact Option.some.inj (hc'.symm.trans (Device.classDrivers_withEndpoints hconf))
      · have hoff : (dev.withEndpoints driver (found b k j)).classDrivers i = dev.classDrivers i :=
          Device.classDrivers_withEndpoints_off fun conf hconf heq => hi ⟨conf, hconf, heq⟩
        rw [hnone] at hoff
        nomatch hc'.symm.trans hoff

/-! ## The driver after its endpoints -/

/-- The driver with its endpoints set. -/
def HIDBaseDriver.withEndpoints (d : HIDBaseDriver) (confs : List EndpointConfig) : HIDBaseDriver :=
  confs.foldl HIDBaseDriver.setEndpoint d

section Driver

variable {d : HIDBaseDriver} {confs : List EndpointConfig}

/-- Only the endpoints change. -/
theorem HIDBaseDriver.withEndpoints_frame (d : HIDBaseDriver) (confs : List EndpointConfig) :
    ∃ i o, d.withEndpoints confs = { d with epInterruptIn := i, epInterruptOut := o } := by
  induction confs generalizing d with
  | nil => exact ⟨_, _, rfl⟩
  | cons conf confs ih =>
    obtain ⟨i, o, heq⟩ := ih (d.setEndpoint conf)
    refine ⟨i, o, heq.trans ?_⟩
    unfold setEndpoint
    split
    · rfl
    · split <;> rfl

/-- The endpoint of the reports is one of the endpoints. -/
theorem HIDBaseDriver.withEndpoints_in
    (h : ∃ conf ∈ confs, conf.epType = .kInterrupt ∧ conf.epId.isIn = true) :
    ∃ conf ∈ confs, conf.epId.isIn = true ∧ (d.withEndpoints confs).epInterruptIn = conf.epId := by
  induction confs using List.reverseRecOn with
  | nil =>
    obtain ⟨conf, hconf, -⟩ := h
    nomatch hconf
  | append_singleton confs last ih =>
    have hlast : d.withEndpoints (confs ++ [last]) = (d.withEndpoints confs).setEndpoint last := by
      rw [withEndpoints, foldl_append]
      rfl
    rw [hlast]
    by_cases hin : last.epType = .kInterrupt ∧ last.epId.isIn = true
    · refine ⟨last, mem_append_right _ mem_cons_self, hin.2, ?_⟩
      rw [setEndpoint, if_pos hin]
    · obtain ⟨conf, hconf, hkind⟩ := h
      have hmem : conf ∈ confs := by
        rcases mem_append.mp hconf with hmem | hmem
        · exact hmem
        · rw [mem_singleton.mp hmem] at hkind
          exact absurd hkind hin
      obtain ⟨conf', hconf', hin', heq⟩ := ih ⟨conf, hmem, hkind⟩
      refine ⟨conf', mem_append_left _ hconf', hin', ?_⟩
      rw [setEndpoint, if_neg hin]
      split
      · exact heq
      · exact heq

end Driver

/-! ## Stages -/

namespace Host

variable {setup : SetupData} {buffered : Bool}

/-- The transfer of the boot protocol. -/
def protocolTransfer (c : ClassDriver) : Transfer :=
  .control (setProtocolSetup c.interfaceNumber.toNat) false

/-- The transfer of the reports. -/
def reportTransfer (c : ClassDriver) (confs : List EndpointConfig) : Transfer :=
  .interruptIn ((HIDBaseDriver.make c).withEndpoints confs).epInterruptIn
    (HIDBaseDriver.make c).inPacketSize

/-- A port and a control pipe that work. -/
structure Attached (h : Host) : Prop where
  slow : h.portSpeed ≠ 0
  fast : h.portSpeed ≤ Xhci.kSuperSpeedPlus
  ring : h.transferRings 0 = true

/-- Before the endpoints, with one transfer that has not ended. -/
structure Starting (h : Host) (phase : Nat) (setup : SetupData) (buffered : Bool) : Prop
    extends h.Attached where
  port : h.portPhase = .kInitializingDevice
  initialized : h.isInitialized = false
  waiters : h.eventWaiters = .empty
  drivers : h.drivers = HIDBaseDriver.make
  commands : h.commands = 0
  phase_eq : h.device.initializePhase = phase
  outstanding : h.outstanding = [.control setup buffered]

/-- A driver with usable endpoints. -/
structure Owned (h : Host) (c : ClassDriver) (confs : List EndpointConfig) : Prop where
  taken : h.device.Taken c confs
  configurable : Configurable confs

/-- From the configuration of the endpoints on, the driver being in a phase. -/
structure Running (h : Host) (c : ClassDriver) (confs : List EndpointConfig) (phase : Nat) : Prop
    extends h.Attached, h.Owned c confs where
  initialized : h.isInitialized = true
  rings : ∀ conf ∈ confs, h.transferRings (conf.epId.addr - 1) = true
  drivers : h.drivers = Function.update HIDBaseDriver.make c
    { (HIDBaseDriver.make c).withEndpoints confs with initializePhase := phase }

/-- The answer about the boot protocol will get to the driver, or has got there. -/
structure Configured (h : Host) (c : ClassDriver) (confs : List EndpointConfig) (phase : Nat) :
    Prop extends h.Running c confs phase where
  port : h.portPhase = .kConfigured
  waiter : h.eventWaiters.get (setProtocolSetup c.interfaceNumber.toNat) = some c
  commands : h.commands = 0

/-- The states on the way, with the number of events that it can still take. -/
inductive Stage (h : Host) : Nat → Prop
  | deviceDescriptor (hs : h.Starting 1 (getDescriptorSetup 1 0 kDeviceBufferSize) true)
      (hnone : h.device.classDrivers = fun _ => none) : Stage h 20
  | configuration (hs : h.Starting 2 (getDescriptorSetup 2 0 kDeviceBufferSize) true)
      (hnone : h.device.classDrivers = fun _ => none) : Stage h 19
  | setConfiguration {c : ClassDriver} {confs : List EndpointConfig} {value : UInt8}
      (hs : h.Starting 3 (setConfigurationSetup value) false) (ho : h.Owned c confs) : Stage h 18
  | endpoints {c : ClassDriver} {confs : List EndpointConfig} (hr : h.Running c confs 0)
      (hport : h.portPhase = .kConfiguringEndpoints) (hwaiters : h.eventWaiters = .empty)
      (hout : h.outstanding = []) (hcommands : h.commands = 1) : Stage h 17
  | protocol {c : ClassDriver} {confs : List EndpointConfig} {n : Nat}
      (hr : h.Configured c confs 1)
      (hout : h.outstanding = List.replicate (n + 1) (protocolTransfer c)) (hn : n < 16) :
      Stage h (n + 1)
  | reports {c : ClassDriver} {confs : List EndpointConfig} (hr : h.Configured c confs 2)
      (hmem : ∀ t ∈ h.outstanding, t = protocolTransfer c ∨ t = reportTransfer c confs)
      (hout : h.outstanding.filter Transfer.isInterrupt = [reportTransfer c confs]) : Stage h 0

variable {h : Host} {c : ClassDriver} {confs : List EndpointConfig} {phase k : Nat}

theorem initializePhase_make (c : ClassDriver) : (HIDBaseDriver.make c).initializePhase = 0 := rfl

section Running

variable (hr : h.Running c confs phase)
include hr

theorem Running.driver : h.drivers c =
    { (HIDBaseDriver.make c).withEndpoints confs with initializePhase := phase } := by
  rw [hr.drivers]
  exact Function.update_self _ _ _

/-- The driver gets to another phase. -/
theorem Running.next (phase' : Nat) :
    Function.update h.drivers c { h.drivers c with initializePhase := phase' } =
      Function.update HIDBaseDriver.make c
        { (HIDBaseDriver.make c).withEndpoints confs with initializePhase := phase' } := by
  rw [hr.driver, hr.drivers, Function.update_idem]

/-- Only this driver is in a phase. -/
theorem Running.eq_of_phase {c' : ClassDriver} {n : Nat} (hn : 0 < n)
    (hc : (h.drivers c').initializePhase = n) : c' = c ∧ phase = n := by
  by_cases heq : c' = c
  · subst heq
    rw [hr.driver] at hc
    exact ⟨rfl, hc⟩
  · rw [hr.drivers, Function.update_of_ne heq, initializePhase_make] at hc
    omega

/-- The endpoint of the reports can be used. -/
theorem Running.report_endpoint :
    (h.drivers c).epInterruptIn.addr ≠ 0 ∧ (h.drivers c).epInterruptIn.isIn = true ∧
      h.transferRings ((h.drivers c).epInterruptIn.addr - 1) = true ∧
      h.device.classDrivers (h.drivers c).epInterruptIn.number = some c := by
  rw [hr.driver]
  obtain ⟨conf, hconf, hin, heq⟩ :=
    HIDBaseDriver.withEndpoints_in (d := HIDBaseDriver.make c) hr.configurable.2
  dsimp only
  rw [heq]
  exact ⟨Nat.ne_zero_of_lt (hr.configurable.1 conf hconf), hin, hr.rings conf hconf,
    hr.taken.mine conf hconf⟩

theorem Running.report_eq : reportTransfer c confs =
    .interruptIn (h.drivers c).epInterruptIn (h.drivers c).inPacketSize := by
  obtain ⟨i, o, heq⟩ := HIDBaseDriver.withEndpoints_frame (HIDBaseDriver.make c) confs
  rw [hr.driver, reportTransfer, heq]

end Running

theorem mem_of_filter_isInterrupt {ts : List Transfer} {t : Transfer}
    (h : ts.filter Transfer.isInterrupt = [t]) : t ∈ ts := by
  have hin : t ∈ [t] := mem_cons_self
  rw [← h] at hin
  exact mem_of_mem_filter hin

theorem Starting.progresses (hs : h.Starting phase setup buffered) : h.Progresses := by
  refine ⟨Or.inr ⟨.control setup buffered, hs.outstanding ▸ mem_cons_self,
    Or.inl hs.initialized⟩, fun c hc => ?_, ?_⟩
  · rw [hs.drivers, initializePhase_make] at hc
    nomatch hc
  · rw [hs.outstanding]
    exact Nat.zero_le 1

/-- A stage is on the way. -/
theorem Stage.progresses (hs : h.Stage k) : h.Progresses := by
  cases hs with
  | deviceDescriptor hs _ => exact hs.progresses
  | configuration hs _ => exact hs.progresses
  | setConfiguration hs _ => exact hs.progresses
  | endpoints hr hport hwaiters hout hcommands =>
    refine ⟨Or.inl (by rw [hcommands]; decide), fun c hc => ?_, ?_⟩
    · nomatch (hr.eq_of_phase (by decide) hc).2
    · rw [hout]
      exact Nat.zero_le 1
  | @protocol c confs n hr hout hn =>
    refine ⟨Or.inr ⟨protocolTransfer c, ?_, Or.inr ⟨c, hr.waiter, by rw [hr.driver]⟩⟩,
      fun c hc => ?_, ?_⟩
    · rw [hout]
      exact mem_replicate.mpr ⟨Nat.succ_ne_zero n, rfl⟩
    · nomatch (hr.eq_of_phase (by decide) hc).2
    · rw [hout, filter_replicate]
      exact Nat.zero_le 1
  | @reports c confs hr hmem hout =>
    refine ⟨Or.inr ⟨_, mem_of_filter_isInterrupt hout, trivial⟩, fun c' hc' => ?_, ?_⟩
    · obtain ⟨rfl, -⟩ := hr.eq_of_phase (by decide) hc'
      obtain ⟨-, -, hring, hback⟩ := hr.report_endpoint
      exact ⟨hc', hout.trans (by rw [hr.report_eq]), hring, hback⟩
    · rw [hout]
      exact Nat.le_refl 1

/-! ## Nothing awaited -/

/-- There may be transfers, but nobody waits for them. -/
structure Lost (h : Host) : Prop where
  commands : h.commands = 0
  unawaited : ∀ t ∈ h.outstanding, ¬ h.Awaits t

theorem Lost.not_progresses (hlost : h.Lost) : ¬ h.Progresses := by
  intro hp
  rcases hp.awaited with hc | ⟨t, ht, hawaits⟩
  · exact hc hlost.commands
  · exact hlost.unawaited t ht hawaits

theorem lost_of_nil (hout : h.outstanding = []) (hcommands : h.commands = 0) : h.Lost := by
  refine ⟨hcommands, fun t ht => ?_⟩
  rw [hout] at ht
  nomatch ht

/-- The answer to a transfer that nobody waits for is an error. -/
theorem onControlCompleted_unawaited (hawaits : ¬ h.Awaits (.control setup buffered))
    (buf : Nat → UInt8) (len : Int) (rounds : Nat) :
    ∃ err, h.onControlCompleted setup buffered buf len rounds = some (h, err) ∧
      err ≠ .kSuccess := by
  obtain ⟨hinit, hphase⟩ := not_or.mp hawaits
  unfold onControlCompleted
  rw [if_pos (Bool.eq_true_of_not_eq_false hinit)]
  cases hget : h.eventWaiters.get setup with
  | none => exact ⟨_, rfl, Error.noConfusion⟩
  | some c =>
    refine ⟨.kNotImplemented, ?_, Error.noConfusion⟩
    dsimp only
    rw [HIDBaseDriver.onControlCompleted, if_neg fun h1 => hphase ⟨c, hget, h1⟩, call,
      Function.update_eq_self]

/-- What is lost stays lost. -/
theorem Lost.step (hlost : h.Lost) {e : HostEvent} (hl : h.Legal e) :
    ∃ h', h.step e = some h' ∧ h'.Lost := by
  cases e with
  | commandCompletion => exact absurd hlost.commands hl
  | transfer i completes buf len rounds =>
    let g : Host := { h with outstanding := h.outstanding.eraseIdx i }
    have hg : g.Lost :=
      ⟨hlost.commands, fun t ht => hlost.unawaited t (mem_of_mem_eraseIdx ht)⟩
    have hi := hl.1
    refine ⟨g, ?_, hg⟩
    show h.onTransferEvent i completes buf len rounds = some g
    rw [onTransferEvent, getElem?_eq_getElem hi, Option.bind_some]
    have hawaits := hlost.unawaited _ (getElem_mem hi)
    show (g.onTransferEventReceived _ completes buf len rounds).bind _ = _
    cases completes with
    | false => rfl
    | true =>
      cases ht : h.outstanding[i] with
      | interruptIn epId len' =>
        rw [ht] at hawaits
        exact absurd trivial hawaits
      | control setup buffered =>
        rw [ht] at hawaits
        obtain ⟨err, heq, herr⟩ :=
          onControlCompleted_unawaited (show ¬ g.Awaits (.control setup buffered) from hawaits) buf
            len rounds
        show (g.onControlCompleted setup buffered buf len rounds).bind _ = _
        rw [heq, Option.bind_some]
        exact if_pos herr

end Host

end UnagiOs.Usb
