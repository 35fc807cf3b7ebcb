import Mathlib.Data.List.Chain
import Mathlib.Data.List.GetD
import UnagiOs.Usb.Descriptor

/-!
# The USB keyboard (usb/classdriver/keyboard.cpp, usb/classdriver/hid.cpp)

A boot keyboard sends reports of eight bytes: the modifiers, a reserved byte and up to six key
codes. The device writes each into `buf_` and tells the driver, which compares it with the report
before in `previous_buf_`, tells its observers of the keys that are new, keeps the report as the
previous one and asks for the next.

The search goes over all of `previous_buf_`, of which the keyboard only ever writes eight bytes; of
these the first two are not key codes (`observe_eq`). So a new key is passed over iff its code is
the modifier byte or the reserved byte of the report before (`observe_eq_newKeys_iff`).
-/

namespace UnagiOs.Usb

/-! ## The driver -/

/-- `EndpointID::IsIn`. -/
def EndpointID.isIn (id : EndpointID) : Bool := id.addr % 2 == 1

/-- `kBufferSize`. -/
def kBufferSize : Nat := 1024

/-- What a driver asks of its device. -/
inductive DriverRequest where
  /-- `ControlOut` of `SET_PROTOCOL` for the boot protocol -/
  | setProtocol (interfaceIndex : Int)
  /-- `InterruptIn` into `buf_` -/
  | interruptIn (epId : EndpointID) (len : Nat)
  deriving DecidableEq, Repr

/-- `HIDKeyboardDriver` with what it inherits from `HIDBaseDriver`. -/
structure HIDKeyboardDriver where
  epInterruptIn : EndpointID
  epInterruptOut : EndpointID
  interfaceIndex : Int
  inPacketSize : Nat
  initializePhase : Nat
  buf : Nat → UInt8
  previousBuf : Nat → UInt8
  numObservers : Nat
  /-- `observers_` has four places. -/
  numObservers_le : numObservers ≤ 4

/-- What a call does: the driver after it, the calls of observers, and what is returned, an error
code or whatever the device answers to a request. -/
structure Reaction where
  driver : HIDKeyboardDriver
  pushes : List (Nat × UInt8)
  answer : Except Error DriverRequest

namespace HIDKeyboardDriver

/-- The constructor. -/
def make (interfaceIndex : Int) : HIDKeyboardDriver where
  epInterruptIn := ⟨0⟩
  epInterruptOut := ⟨0⟩
  interfaceIndex := interfaceIndex
  inPacketSize := 8
  initializePhase := 0
  buf := fun _ => 0
  previousBuf := fun _ => 0
  numObservers := 0
  numObservers_le := by decide

variable (d : HIDKeyboardDriver)

/-- `SubscribeKeyPush`; `none` if it stores behind the end of `observers_`. -/
def subscribeKeyPush : Option HIDKeyboardDriver :=
  if h : d.numObservers < 4 then
    some { d with numObservers := d.numObservers + 1, numObservers_le := h }
  else none

/-- `SetEndpoint`. -/
def setEndpoint (config : EndpointConfig) : HIDKeyboardDriver :=
  if config.epType = .kInterrupt ∧ config.epId.isIn then { d with epInterruptIn := config.epId }
  else if config.epType = .kInterrupt ∧ ¬ config.epId.isIn then
    { d with epInterruptOut := config.epId }
  else d

/-- `OnEndpointsConfigured`. -/
def onEndpointsConfigured : Reaction :=
  { driver := { d with initializePhase := 1 }
    pushes := []
    answer := .ok (.setProtocol d.interfaceIndex) }

/-- `OnControlCompleted`. -/
def onControlCompleted : Reaction :=
  if d.initializePhase = 1 then
    { driver := { d with initializePhase := 2 }
      pushes := []
      answer := .ok (.interruptIn d.epInterruptIn d.inPacketSize) }
  else { driver := d, pushes := [], answer := .error .kNotImplemented }

/-- `NotifyKeyPush`: each observer is called with the key code. -/
def notifyKeyPush (keycode : UInt8) : List (Nat × UInt8) :=
  (List.range d.numObservers).map fun i => (i, keycode)

/-- `OnDataReceived`. -/
def onDataReceived : List (Nat × UInt8) :=
  (List.range' 2 6).flatMap fun i =>
    let key := d.buf i
    if key = 0 then []
    else if (slots d.previousBuf kBufferSize).contains key then []
    else d.notifyKeyPush key

/-- `OnInterruptCompleted`. -/
def onInterruptCompleted (epId : EndpointID) (len : Nat) : Reaction :=
  if epId.isIn then
    { driver := { d with previousBuf := fun i => if i < len then d.buf i else d.previousBuf i }
      pushes := d.onDataReceived
      answer := .ok (.interruptIn d.epInterruptIn d.inPacketSize) }
  else { driver := d, pushes := [], answer := .error .kNotImplemented }

end HIDKeyboardDriver

/-- A report of a boot keyboard: modifiers, a reserved byte and six key codes. -/
abbrev Report := Vector UInt8 8

/-- The key codes of a report. -/
def Report.keys (r : Report) : List UInt8 := r.toList.drop 2

/-- No key is down. -/
def Report.none : Report := Vector.replicate 8 0

namespace HIDKeyboardDriver

/-- The device writes a report into `buf_`. -/
def withReport (d : HIDKeyboardDriver) (r : Report) : HIDKeyboardDriver :=
  { d with buf := fun i => if i < 8 then r.toList.getD i 0 else d.buf i }

/-- A report is written, and the interrupt for it is handled. -/
def receive (d : HIDKeyboardDriver) (epId : EndpointID) (r : Report) : Reaction :=
  (d.withReport r).onInterruptCompleted epId 8

/-- The key codes with which the observer is called. -/
def toObserver (observer : Nat) (pushes : List (Nat × UInt8)) : List UInt8 :=
  (pushes.filter fun p => p.1 == observer).map Prod.snd

/-- What an observer is told, report by report. -/
def observe (epId : EndpointID) (observer : Nat) : HIDKeyboardDriver → List Report →
    List (List UInt8)
  | _, [] => []
  | d, r :: rs =>
    toObserver observer (d.receive epId r).pushes ::
      observe epId observer (d.receive epId r).driver rs

end HIDKeyboardDriver

/-! ## The keys that are new -/

/-- The key codes of a report that are not in a list. -/
def Report.keysNotIn (r : Report) (before : List UInt8) : List UInt8 :=
  r.keys.filter fun k => k ≠ 0 ∧ k ∉ before

/-- The key codes that are new in each report, compared with some of the bytes before. -/
def newKeys (compared : Report → List UInt8) : Report → List Report → List (List UInt8)
  | _, [] => []
  | prev, r :: rs => r.keysNotIn (compared prev) :: newKeys compared r rs

/-- No new key of `r` has the code of a byte of `prev` that is not a key. -/
def KeysApart (prev r : Report) : Prop :=
  ∀ k ∈ r.keys, k ≠ 0 → k ∉ prev.keys → k ≠ prev[0] ∧ k ≠ prev[1]

instance KeysApart.decidable (prev r : Report) : Decidable (KeysApart prev r) :=
  List.decidableBAll (fun k => k ≠ 0 → k ∉ prev.keys → k ≠ prev[0] ∧ k ≠ prev[1]) r.keys

section Compare

variable {prev r : Report}

/-- Looking at all the bytes before finds the same keys iff the bytes apart from the keys do not
matter. -/
theorem keysNotIn_toList_eq_iff :
    r.keysNotIn prev.toList = r.keysNotIn prev.keys ↔ KeysApart prev r := by
  have hbytes : prev.toList = prev[0] :: prev[1] :: prev.keys := by
    refine List.ext_getElem ?_ fun i hi hi' => ?_
    · simp [Report.keys]
    · match i with
      | 0 => rfl
      | 1 => rfl
      | i + 2 => simp [Report.keys, Nat.add_comm]
  constructor
  · intro heq k hk hzero hnew
    have hmem : k ∈ r.keysNotIn prev.keys :=
      List.mem_filter.mpr ⟨hk, decide_eq_true ⟨hzero, hnew⟩⟩
    rw [← heq] at hmem
    have hall := (of_decide_eq_true (List.mem_filter.mp hmem).2).2
    rw [hbytes, List.mem_cons, List.mem_cons, not_or, not_or] at hall
    exact ⟨hall.1, hall.2.1⟩
  · intro hapart
    refine List.filter_congr fun k hk => decide_eq_decide.mpr (and_congr_right fun hzero => ?_)
    rw [hbytes, List.mem_cons, List.mem_cons, not_or, not_or]
    exact ⟨fun h => h.2.2, fun h => ⟨(hapart k hk hzero h).1, (hapart k hk hzero h).2, h⟩⟩

/-- **Any reports.** The two comparisons agree iff they do so for each report and the next. -/
theorem newKeys_eq_iff (prev : Report) (rs : List Report) :
    newKeys Vector.toList prev rs = newKeys Report.keys prev rs ↔
      (prev :: rs).IsChain KeysApart := by
  induction rs generalizing prev with
  | nil => simp [newKeys]
  | cons r rs ih =>
    rw [newKeys, newKeys, List.cons.injEq, keysNotIn_toList_eq_iff, ih, List.isChain_cons_cons]

/-- After a report without keys every key is new. -/
theorem keysApart_none (r : Report) : KeysApart Report.none r := by
  intro k _ hzero _
  simpa [Report.none] using hzero

end Compare

/-! ## What the driver does -/

namespace HIDKeyboardDriver

variable {d : HIDKeyboardDriver} {prev r : Report} {epId : EndpointID} {observer : Nat}

theorem toObserver_notifyKeyPush (hobs : observer < d.numObservers) (k : UInt8) :
    toObserver observer (d.notifyKeyPush k) = [k] := by
  have hcount : (List.range d.numObservers).count observer = 1 :=
    List.count_eq_one_of_mem List.nodup_range (List.mem_range.mpr hobs)
  have hone : (List.range d.numObservers).filter (fun i => i == observer) = [observer] := by
    rw [List.filter_beq, hcount, List.replicate_one]
  rw [toObserver, notifyKeyPush, List.filter_map, List.map_map]
  show ((List.range d.numObservers).filter fun i => i == observer).map (fun _ => k) = [k]
  rw [hone]
  rfl

/-- The loop over the key codes is a filter. -/
theorem toObserver_onDataReceived (hobs : observer < d.numObservers) :
    toObserver observer d.onDataReceived = ((List.range' 2 6).map d.buf).filter
      fun k => k ≠ 0 ∧ k ∉ slots d.previousBuf kBufferSize := by
  rw [onDataReceived]
  induction List.range' 2 6 with
  | nil => rfl
  | cons i is ih =>
    have happend : ∀ xs ys, toObserver observer (xs ++ ys) =
        toObserver observer xs ++ toObserver observer ys := by
      intro xs ys
      rw [toObserver, List.filter_append, List.map_append]
      rfl
    rw [List.flatMap_cons, happend, ih, List.map_cons, List.filter_cons]
    by_cases hzero : d.buf i = 0
    · simp [hzero, toObserver]
    · by_cases hfound : d.buf i ∈ slots d.previousBuf kBufferSize
      · simp [hzero, hfound, toObserver]
      · simp [hzero, hfound, toObserver_notifyKeyPush hobs]

/-- `previous_buf_` holds a report, and nothing behind it; nor does `buf_`. -/
structure Remembers (d : HIDKeyboardDriver) (prev : Report) : Prop where
  previous : ∀ i, d.previousBuf i = prev.toList.getD i 0
  rest : ∀ i, 8 ≤ i → d.buf i = 0

/-- A search that goes on behind the report finds nothing there but zeros. -/
theorem Remembers.mem_slots_iff (h : d.Remembers prev) {k : UInt8} (hk : k ≠ 0) :
    k ∈ slots d.previousBuf kBufferSize ↔ k ∈ prev.toList := by
  rw [mem_slots, List.mem_iff_getElem]
  constructor
  · rintro ⟨i, -, rfl⟩
    rw [h.previous] at hk ⊢
    have hi : i < prev.toList.length := by
      refine Nat.lt_of_not_le fun hi => hk ?_
      rw [List.getD_eq_default _ _ hi]
    exact ⟨i, hi, (List.getD_eq_getElem _ _ hi).symm⟩
  · rintro ⟨i, hi, rfl⟩
    refine ⟨i, ?_, ?_⟩
    · rw [Vector.length_toList] at hi
      exact hi.trans (by decide)
    · rw [h.previous, List.getD_eq_getElem _ _ hi]

theorem map_withReport_buf (d : HIDKeyboardDriver) (r : Report) :
    (List.range' 2 6).map (d.withReport r).buf = r.keys := by
  rw [Report.keys]
  refine List.ext_getElem (by simp) fun i hi _ => ?_
  rw [List.length_map, List.length_range'] at hi
  have hlen : 2 + i < r.toList.length := by
    rw [Vector.length_toList]
    omega
  rw [List.getElem_map, List.getElem_range', Nat.one_mul, List.getElem_drop]
  show (if 2 + i < 8 then r.toList.getD (2 + i) 0 else d.buf (2 + i)) = r.toList[2 + i]
  rw [if_pos (by omega), List.getD_eq_getElem _ _ hlen]

/-- **One report.** -/
theorem Remembers.receive (h : d.Remembers prev) (hin : epId.isIn = true)
    (hobs : observer < d.numObservers) (r : Report) :
    toObserver observer (d.receive epId r).pushes = r.keysNotIn prev.toList ∧
      (d.receive epId r).driver.Remembers r ∧
      (d.receive epId r).driver.numObservers = d.numObservers := by
  rw [HIDKeyboardDriver.receive, onInterruptCompleted, if_pos hin]
  refine ⟨?_, ⟨fun i => ?_, fun i hi => ?_⟩, rfl⟩
  · have hobs' : observer < (d.withReport r).numObservers := hobs
    show toObserver observer (d.withReport r).onDataReceived = r.keysNotIn prev.toList
    rw [toObserver_onDataReceived hobs', map_withReport_buf]
    refine List.filter_congr fun k _ => decide_eq_decide.mpr (and_congr_right fun hzero => ?_)
    exact not_congr (h.mem_slots_iff hzero)
  · show (if i < 8 then (if i < 8 then r.toList.getD i 0 else d.buf i) else d.previousBuf i) =
      r.toList.getD i 0
    by_cases hi : i < 8
    · rw [if_pos hi, if_pos hi]
    · have hle : 8 ≤ i := Nat.not_lt.mp hi
      have hdefault : ∀ q : Report, q.toList.getD i 0 = 0 := fun q =>
        List.getD_eq_default _ _ (by rwa [Vector.length_toList])
      rw [if_neg hi, h.previous, hdefault, hdefault]
  · show (if i < 8 then r.toList.getD i 0 else d.buf i) = 0
    rw [if_neg (Nat.not_lt.mpr hi), h.rest i hi]

/-- **Any reports.** The observer is told of the keys that are not among all the bytes before. -/
theorem Remembers.observe_eq (h : d.Remembers prev) (hin : epId.isIn = true)
    (hobs : observer < d.numObservers) (rs : List Report) :
    observe epId observer d rs = newKeys Vector.toList prev rs := by
  induction rs generalizing d prev with
  | nil => rfl
  | cons r rs ih =>
    obtain ⟨hpushes, hnext, hnum⟩ := h.receive hin hobs r
    rw [observe, newKeys, hpushes, ih hnext (hnum ▸ hobs)]

end HIDKeyboardDriver

namespace HIDKeyboardDriver

/-- A driver before its first report: made, given endpoints and observers, and through the steps of
its initialization. -/
inductive SetUp : HIDKeyboardDriver → Prop
  | make (interfaceIndex : Int) : SetUp (.make interfaceIndex)
  | subscribe {d d' : HIDKeyboardDriver} (h : SetUp d) (hd' : d.subscribeKeyPush = some d') :
    SetUp d'
  | endpoint {d : HIDKeyboardDriver} (h : SetUp d) (config : EndpointConfig) :
    SetUp (d.setEndpoint config)
  | configured {d : HIDKeyboardDriver} (h : SetUp d) : SetUp d.onEndpointsConfigured.driver
  | protocolSet {d : HIDKeyboardDriver} (h : SetUp d) : SetUp d.onControlCompleted.driver

/-- A driver that is set up has seen no key. -/
theorem SetUp.remembers {d : HIDKeyboardDriver} (h : d.SetUp) : d.Remembers Report.none := by
  induction h with
  | make interfaceIndex =>
    constructor
    · intro i
      show 0 = (Report.none.toList).getD i 0
      rw [Report.none, Vector.toList_replicate]
      by_cases hi : i < 8
      · rw [List.getD_replicate _ hi]
      · rw [List.getD_eq_default _ _ (by simpa using hi)]
    · exact fun i _ => rfl
  | subscribe h hd' ih =>
    rw [subscribeKeyPush] at hd'
    split at hd'
    · cases hd'
      exact ⟨ih.previous, ih.rest⟩
    · cases hd'
  | endpoint h config ih =>
    rw [setEndpoint]
    split
    · exact ⟨ih.previous, ih.rest⟩
    · split
      · exact ⟨ih.previous, ih.rest⟩
      · exact ih
  | configured h ih => exact ⟨ih.previous, ih.rest⟩
  | protocolSet h ih =>
    rw [onControlCompleted]
    split
    · exact ⟨ih.previous, ih.rest⟩
    · exact ih

end HIDKeyboardDriver

/-- **What observers are told** of any reports: exactly the keys that are not among the keys before,
iff no report has a new key with the code of the modifier byte or the reserved byte of the report
before. -/
theorem observe_eq_newKeys_iff {d : HIDKeyboardDriver} (hd : d.SetUp) {epId : EndpointID}
    (hin : epId.isIn = true) {observer : Nat} (hobs : observer < d.numObservers)
    (rs : List Report) :
    HIDKeyboardDriver.observe epId observer d rs = newKeys Report.keys Report.none rs ↔
      rs.IsChain KeysApart := by
  rw [hd.remembers.observe_eq hin hobs, newKeys_eq_iff, List.isChain_cons]
  exact and_iff_right fun r _ => keysApart_none r

/-- A keyboard with one observer is told of a, and then of b pressed on top of it. -/
theorem observe_eq_newKeys_a_b :
    HIDKeyboardDriver.observe (.make 1 true) 0
      ((HIDKeyboardDriver.make 0).subscribeKeyPush.get rfl)
      [#v[0, 0, 4, 0, 0, 0, 0, 0], #v[0, 0, 4, 5, 0, 0, 0, 0]] = [[4], [5]] := by
  have hd : ((HIDKeyboardDriver.make 0).subscribeKeyPush.get rfl).SetUp :=
    .subscribe (.make 0) rfl
  have hapart : [#v[0, 0, 4, 0, 0, 0, 0, 0], #v[0, 0, 4, 5, 0, 0, 0, 0]].IsChain KeysApart :=
    .cons_cons (by decide) (.singleton _)
  exact ((observe_eq_newKeys_iff hd (by decide) (by decide) _).mpr hapart).trans (by decide)

/-- Left Alt is let go as a is pressed. The modifier byte for left Alt is 4, and so is the key code
of a: nobody is told of it. -/
theorem observe_alt_then_a :
    HIDKeyboardDriver.observe (.make 1 true) 0
        ((HIDKeyboardDriver.make 0).subscribeKeyPush.get rfl)
        [#v[4, 0, 0, 0, 0, 0, 0, 0], #v[0, 0, 4, 0, 0, 0, 0, 0]] = [[], []] ∧
      newKeys Report.keys Report.none
        [#v[4, 0, 0, 0, 0, 0, 0, 0], #v[0, 0, 4, 0, 0, 0, 0, 0]] = [[], [4]] := by
  have hd : ((HIDKeyboardDriver.make 0).subscribeKeyPush.get rfl).SetUp :=
    .subscribe (.make 0) rfl
  rw [hd.remembers.observe_eq (by decide) (by decide)]
  decide

end UnagiOs.Usb
