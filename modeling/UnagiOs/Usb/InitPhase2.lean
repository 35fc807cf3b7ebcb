import UnagiOs.Usb.Descriptor

/-!
# Where `InitializePhase2` goes

The reader visits `visit b 1`, `visit b 2`, ... as the length bytes send it. `InitializePhase2`
skips the descriptors up to the first interface with a driver, number `k + 1`, and then takes the
endpoint configurations from the descriptors behind it until it has as many as the interface asks
for.

- `Reached`: the states that occur, told by the bytes; `reached_iff_phase2`: these and no others.
- `returns_iff`: on which data the function returns. A descriptor of length 0 holds the reader
  where it is, and the loop over the endpoints does not notice the end of the data.
- `safe_iff`: on which data it keeps to what the device has sent and to its own array.
-/

namespace UnagiOs.Usb

open List

section Data

variable (b : Nat → UInt8) (len : Int)

/-- The driver for the descriptor at a place. -/
def driverAt (p : Nat) : Option ClassDriver := interfaceDriver (bytesAt b p)

/-- The endpoint configuration in the descriptor at a place. -/
def endpointAt (p : Nat) : Option EndpointConfig := endpointConfig (bytesAt b p)

/-- The first `n` descriptors behind the configuration descriptor are inside of the data, and there
is no driver for any of them. -/
def Searching (n : Nat) : Prop :=
  ∀ i, 1 ≤ i → i ≤ n → (visit b i : Int) < len ∧ driverAt b (visit b i) = none

/-- The next one is an interface with a driver. -/
structure FirstDriver (k : Nat) (driver : ClassDriver) : Prop where
  searching : Searching b len k
  inside : (visit b (k + 1) : Int) < len
  driver : driverAt b (visit b (k + 1)) = some driver

/-- `num_endpoints` of that interface. -/
def asked (k : Nat) : Nat := (b (visit b (k + 1) + 4)).toNat

/-- The endpoint configurations in the `j` descriptors behind it. -/
def found (k j : Nat) : List EndpointConfig :=
  (List.range j).filterMap fun i => endpointAt b (visit b (k + 2 + i))

/-- The loop over the endpoints goes through these descriptors: there were too few endpoints before
each of them, the data do not end there, and there is room for an endpoint. -/
def Collecting (k j : Nat) : Prop :=
  ∀ i < j, (found b k i).length < asked b k ∧ (visit b (k + 2 + i) : Int) < len ∧
    (endpointAt b (visit b (k + 2 + i)) ≠ none → (found b k i).length < 16)

end Data

/-- The device with these endpoints and no others. -/
def Device.withEndpoints (dev : Device) (driver : ClassDriver) (confs : List EndpointConfig) :
    Device :=
  confs.foldl (Device.addEndpoint driver) { dev with numEpConfigs := 0 }

section Endpoints

variable {b : Nat → UInt8} {len : Int} {dev : Device} {driver : ClassDriver} {k j : Nat}

theorem Device.withEndpoints_append (confs : List EndpointConfig) (conf : EndpointConfig) :
    dev.withEndpoints driver (confs ++ [conf]) =
      (dev.withEndpoints driver confs).addEndpoint driver conf := by
  rw [withEndpoints, foldl_append]
  rfl

@[simp] theorem Device.numEpConfigs_withEndpoints (confs : List EndpointConfig) :
    (dev.withEndpoints driver confs).numEpConfigs = confs.length := by
  induction confs using List.reverseRecOn with
  | nil => rfl
  | append_singleton confs conf ih =>
    rw [withEndpoints_append, length_append]
    exact congrArg (· + 1) ih

theorem found_succ (b : Nat → UInt8) (k j : Nat) :
    found b k (j + 1) = found b k j ++ (endpointAt b (visit b (k + 2 + j))).toList := by
  rw [found, range_succ, filterMap_append, found]
  rfl

theorem found_succ_none (h : endpointAt b (visit b (k + 2 + j)) = none) :
    found b k (j + 1) = found b k j := by
  rw [found_succ, h, Option.toList_none, append_nil]

theorem found_succ_some {conf : EndpointConfig}
    (h : endpointAt b (visit b (k + 2 + j)) = some conf) :
    found b k (j + 1) = found b k j ++ [conf] := by
  rw [found_succ, h, Option.toList_some]

theorem length_found_succ_le (b : Nat → UInt8) (k j : Nat) :
    (found b k (j + 1)).length ≤ (found b k j).length + 1 := by
  rw [found_succ, length_append]
  exact Nat.add_le_add_left Option.length_toList_le _

/-- What has been found is not lost. -/
theorem found_initial (b : Nat → UInt8) (k : Nat) {i j : Nat} (h : i ≤ j) :
    found b k i <+: found b k j := by
  induction j, h using Nat.le_induction with
  | base => exact prefix_rfl
  | succ j _ ih =>
    rw [found_succ]
    exact ih.trans (prefix_append _ _)

theorem Collecting.succ (h : Collecting b len k j) (hmore : (found b k j).length < asked b k)
    (hin : (visit b (k + 2 + j) : Int) < len)
    (hroom : endpointAt b (visit b (k + 2 + j)) ≠ none → (found b k j).length < 16) :
    Collecting b len k (j + 1) := by
  intro i hi
  rcases Nat.lt_succ_iff_lt_or_eq.mp hi with hi | rfl
  · exact h i hi
  · exact ⟨hmore, hin, hroom⟩

theorem Collecting.of_succ (h : Collecting b len k (j + 1)) : Collecting b len k j :=
  fun i hi => h i (Nat.lt_succ_of_lt hi)

/-- There is room for what the loop has taken. -/
theorem Collecting.length_le (h : Collecting b len k j) : (found b k j).length ≤ 16 := by
  induction j with
  | zero => exact Nat.zero_le _
  | succ j ih =>
    cases hend : endpointAt b (visit b (k + 2 + j)) with
    | none =>
      rw [found_succ_none hend]
      exact ih h.of_succ
    | some conf =>
      have hroom := (h j (Nat.lt_succ_self j)).2.2 (by rw [hend]; exact Option.some_ne_none _)
      exact (length_found_succ_le b k j).trans hroom

end Endpoints

/-! ## Rounds -/

section Rounds

variable (b : Nat → UInt8) (len : Int) (dev : Device)

/-- A round of the search. -/
theorem phase2Step_find (n : Nat) : phase2Step b len (.find (visit b n) dev) =
    if (visit b (n + 1) : Int) < len then
      match driverAt b (visit b (n + 1)) with
      | none => .find (visit b (n + 1)) dev
      | some driver => .collect (visit b (n + 1)) (visit b (n + 1)) driver
          { dev with numEpConfigs := 0 }
    else .returned dev (.error .kSuccess) := by
  rw [phase2Step, next, ← visit_succ]
  by_cases hin : (visit b (n + 1) : Int) < len
  · rw [if_pos hin, if_pos hin, driverAt, interfaceDriver]
    by_cases htype : b (visit b (n + 1) + 1) = interfaceType
    · rw [if_pos (show bytesAt b (visit b (n + 1)) 1 = interfaceType from htype)]
      exact if_pos htype
    · rw [if_neg (show ¬ bytesAt b (visit b (n + 1)) 1 = interfaceType from htype)]
      exact if_neg htype
  · rw [if_neg hin, if_neg hin]

/-- The loop over the endpoints after `j` descriptors. -/
def collectAt (driver : ClassDriver) (k j : Nat) : Phase2 :=
  .collect (visit b (k + 1 + j)) (visit b (k + 1)) driver
    (dev.withEndpoints driver (found b k j))

theorem hop_visit_collect (k j : Nat) : hop b (visit b (k + 1 + j)) = visit b (k + 2 + j) := by
  rw [← visit_succ]
  congr 1
  omega

/-- A round of the loop over the endpoints. -/
theorem phase2Step_collectAt (driver : ClassDriver) (k j : Nat) :
    phase2Step b len (collectAt b dev driver k j) =
      if (found b k j).length < asked b k then
        if (visit b (k + 2 + j) : Int) < len ∧
            (endpointAt b (visit b (k + 2 + j)) ≠ none → (found b k j).length < 16) then
          collectAt b dev driver k (j + 1)
        else .fault
      else .returned { dev.withEndpoints driver (found b k j) with initializePhase := 3 }
        (.setConfiguration (b 5)) := by
  have hplace : k + 1 + (j + 1) = k + 2 + j := by omega
  rw [collectAt, phase2Step, next, hop_visit_collect]
  by_cases hmore : (found b k j).length < asked b k
  · have hmore' : (dev.withEndpoints driver (found b k j)).numEpConfigs <
        (b (visit b (k + 1) + 4)).toNat := by
      rw [Device.numEpConfigs_withEndpoints]
      exact hmore
    rw [if_pos hmore, if_pos hmore']
    by_cases hin : (visit b (k + 2 + j) : Int) < len
    · rw [if_pos hin, collectAt, hplace]
      by_cases htype : b (visit b (k + 2 + j) + 1) = endpointType
      · have hend : endpointAt b (visit b (k + 2 + j)) =
            some (makeEPConfig (bytesAt b (visit b (k + 2 + j)))) := if_pos htype
        rw [found_succ_some hend, Device.withEndpoints_append]
        simp only [if_pos htype, hend, hin, Device.numEpConfigs_withEndpoints, ne_eq,
          Option.some_ne_none, not_false_eq_true, forall_const, true_and]
      · have hend : endpointAt b (visit b (k + 2 + j)) = none := if_neg htype
        rw [found_succ_none hend]
        simp only [if_neg htype, hend, hin, ne_eq, not_true_eq_false, false_implies, and_true,
          if_true]
    · rw [if_neg hin, if_neg fun h => hin h.1]
  · have hmore' : ¬ (dev.withEndpoints driver (found b k j)).numEpConfigs <
        (b (visit b (k + 1) + 4)).toNat := by
      rw [Device.numEpConfigs_withEndpoints]
      exact hmore
    rw [if_neg hmore, if_neg hmore']

theorem phase2_succ (n : Nat) : phase2 b len dev (n + 1) = phase2Step b len (phase2 b len dev n) :=
  Function.iterate_succ_apply' _ _ _

end Rounds

/-! ## The states that occur -/

/-- The states, by what the bytes say. -/
inductive Reached (b : Nat → UInt8) (len : Int) (dev : Device) : Phase2 → Prop
  | start : Reached b len dev (.start dev)
  | invalid (htype : b 1 ≠ configurationType) :
      Reached b len dev (.returned dev (.error .kInvalidDescriptor))
  | find {n : Nat} (htype : b 1 = configurationType) (hn : Searching b len n) :
      Reached b len dev (.find (visit b n) dev)
  | out {n : Nat} (htype : b 1 = configurationType) (hn : Searching b len n)
      (hout : len ≤ visit b (n + 1)) : Reached b len dev (.returned dev (.error .kSuccess))
  | collect {k j : Nat} {driver : ClassDriver} (htype : b 1 = configurationType)
      (hk : FirstDriver b len k driver) (hj : Collecting b len k j) :
      Reached b len dev (collectAt b dev driver k j)
  | done {k j : Nat} {driver : ClassDriver} (htype : b 1 = configurationType)
      (hk : FirstDriver b len k driver) (hj : Collecting b len k j)
      (hdone : asked b k ≤ (found b k j).length) :
      Reached b len dev (.returned
        { dev.withEndpoints driver (found b k j) with initializePhase := 3 }
        (.setConfiguration (b 5)))
  | fault {k j : Nat} {driver : ClassDriver} (htype : b 1 = configurationType)
      (hk : FirstDriver b len k driver) (hj : Collecting b len k j)
      (hmore : (found b k j).length < asked b k)
      (hbad : len ≤ visit b (k + 2 + j) ∨
        endpointAt b (visit b (k + 2 + j)) ≠ none ∧ 16 ≤ (found b k j).length) :
      Reached b len dev .fault

section Reached

variable {b : Nat → UInt8} {len : Int} {dev : Device} {s : Phase2} {n k j : Nat}
  {driver : ClassDriver}

theorem Searching.succ (h : Searching b len n) (hin : (visit b (n + 1) : Int) < len)
    (hnone : driverAt b (visit b (n + 1)) = none) : Searching b len (n + 1) := by
  intro i hi hle
  rcases Nat.le_succ_iff.mp hle with hle | rfl
  · exact h i hi hle
  · exact ⟨hin, hnone⟩

theorem Searching.of_succ (h : Searching b len (n + 1)) : Searching b len n :=
  fun i hi hle => h i hi (Nat.le_succ_of_le hle)

theorem collecting_zero : Collecting b len k 0 := fun _ hi => absurd hi (Nat.not_lt_zero _)

/-- A round leads from a state that occurs to one that occurs. -/
theorem Reached.step (h : Reached b len dev s) : Reached b len dev (phase2Step b len s) := by
  cases h with
  | start =>
    rw [phase2Step]
    split
    · next htype =>
      exact .find (n := 0) htype fun i hi hle => absurd hi (by omega)
    · next htype => exact .invalid htype
  | invalid htype => exact .invalid htype
  | @find n htype hn =>
    rw [phase2Step_find]
    split
    · next hin =>
      cases hdriver : driverAt b (visit b (n + 1)) with
      | none => exact .find htype (hn.succ hin hdriver)
      | some driver => exact .collect (j := 0) htype ⟨hn, hin, hdriver⟩ collecting_zero
    · next hout => exact .out htype hn (not_lt.mp hout)
  | out htype hn hout => exact .out htype hn hout
  | @collect k j driver htype hk hj =>
    rw [phase2Step_collectAt]
    split
    · next hmore =>
      split
      · next hgo => exact .collect htype hk (hj.succ hmore hgo.1 hgo.2)
      · next hstop =>
        refine .fault htype hk hj hmore ?_
        by_cases hin : (visit b (k + 2 + j) : Int) < len
        · right
          rw [not_and, Classical.not_imp, not_lt] at hstop
          exact hstop hin
        · exact .inl (not_lt.mp hin)
    · next hdone => exact .done htype hk hj (not_lt.mp hdone)
  | done htype hk hj hdone => exact .done htype hk hj hdone
  | fault htype hk hj hmore hbad => exact .fault htype hk hj hmore hbad

/-- Every state of the run is one of these. -/
theorem reached_phase2 (b : Nat → UInt8) (len : Int) (dev : Device) (n : Nat) :
    Reached b len dev (phase2 b len dev n) := by
  induction n with
  | zero => exact .start
  | succ n ih =>
    rw [phase2_succ]
    exact ih.step

/-- The run of the search over descriptors without a driver. -/
theorem phase2_find (htype : b 1 = configurationType) (hn : Searching b len n) :
    phase2 b len dev (n + 1) = .find (visit b n) dev := by
  induction n with
  | zero => exact if_pos htype
  | succ n ih =>
    obtain ⟨hin, hnone⟩ := hn (n + 1) (by omega) (Nat.le_refl _)
    rw [phase2_succ, ih hn.of_succ, phase2Step_find, if_pos hin, hnone]

/-- The run of the loop over the endpoints. -/
theorem phase2_collectAt (htype : b 1 = configurationType) (hk : FirstDriver b len k driver)
    (hj : Collecting b len k j) : phase2 b len dev (k + 2 + j) = collectAt b dev driver k j := by
  induction j with
  | zero =>
    rw [Nat.add_zero, phase2_succ, phase2_find htype hk.searching, phase2Step_find,
      if_pos hk.inside, hk.driver]
    rfl
  | succ j ih =>
    obtain ⟨hmore, hin, hroom⟩ := hj j (Nat.lt_succ_self j)
    rw [← Nat.add_assoc, phase2_succ, ih hj.of_succ, phase2Step_collectAt, if_pos hmore,
      if_pos ⟨hin, hroom⟩]

/-- **The states that occur** are these and no others. -/
theorem reached_iff_phase2 : Reached b len dev s ↔ ∃ n, phase2 b len dev n = s := by
  constructor
  · intro h
    cases h with
    | start => exact ⟨0, rfl⟩
    | invalid htype => exact ⟨1, if_neg htype⟩
    | @find n htype hn => exact ⟨n + 1, phase2_find htype hn⟩
    | @out n htype hn hout =>
      refine ⟨n + 2, ?_⟩
      rw [phase2_succ, phase2_find htype hn, phase2Step_find, if_neg (not_lt.mpr hout)]
    | @collect k j driver htype hk hj => exact ⟨k + 2 + j, phase2_collectAt htype hk hj⟩
    | @done k j driver htype hk hj hdone =>
      refine ⟨k + 2 + j + 1, ?_⟩
      rw [phase2_succ, phase2_collectAt htype hk hj, phase2Step_collectAt,
        if_neg (not_lt.mpr hdone)]
    | @fault k j driver htype hk hj hmore hbad =>
      refine ⟨k + 2 + j + 1, ?_⟩
      rw [phase2_succ, phase2_collectAt htype hk hj, phase2Step_collectAt, if_pos hmore]
      refine if_neg fun hgo => ?_
      rcases hbad with hout | ⟨hend, hfull⟩
      · exact absurd hgo.1 (not_lt.mpr hout)
      · exact absurd (hgo.2 hend) (not_lt.mpr hfull)
  · rintro ⟨n, rfl⟩
    exact reached_phase2 b len dev n

end Reached

/-! ## What is touched -/

section Touches

variable {b : Nat → UInt8} {len : Int} {dev : Device} {driver : ClassDriver} {n k j q : Nat}

/-- The last of some bytes decides. -/
theorem reads_ok (offsets : List Nat) {m : Nat} (hle : ∀ i ∈ offsets, i ≤ m)
    (h : ((q + m : Nat) : Int) < len) :
    ∀ a ∈ offsets.map (fun i => Access.read (q + i)), a.Ok len := by
  intro a ha
  obtain ⟨i, hi, rfl⟩ := mem_map.mp ha
  have him := hle i hi
  show ((q + i : Nat) : Int) < len
  omega

/-- The last class descriptor of a HID descriptor decides. -/
theorem hidReads_ok : (∀ a ∈ hidReads q n, a.Ok len) ↔ ((q + 5 + 3 * n : Nat) : Int) < len := by
  constructor
  · intro h
    cases n with
    | zero => exact h (.read (q + 5)) (by simp [hidReads])
    | succ n =>
      have hlast := h (.read (q + 8 + 3 * n)) (by
        simp only [hidReads, mem_append, mem_flatMap, mem_range]
        exact .inr ⟨n, Nat.lt_succ_self n, by simp⟩)
      have hplace : q + 5 + 3 * (n + 1) = q + 8 + 3 * n := by omega
      rw [hplace]
      exact hlast
  · intro h a ha
    simp only [hidReads, mem_append, mem_flatMap, mem_range, mem_cons,
      not_mem_nil, or_false] at ha
    rcases ha with (rfl | rfl | rfl) | ⟨i, hi, rfl | rfl | rfl⟩
    all_goals
      show ((_ : Nat) : Int) < len
      omega

theorem headReads_ok : (∀ a ∈ [Access.cast (some q), .read (q + 1)], a.Ok len) ↔
    ((q + 1 : Nat) : Int) < len := by
  rw [forall_mem_cons, forall_mem_singleton]
  exact and_iff_right (Option.some_ne_none q)

theorem endpointReads_ok : (∀ a ∈ [Access.read (q + 2), .read (q + 3), .read (q + 4),
    .read (q + 5), .read (q + 6), .store n], a.Ok len) ↔
      ((q + 6 : Nat) : Int) < len ∧ n < 16 := by
  constructor
  · intro h
    exact ⟨h (.read (q + 6)) (by simp), h (.store n) (by simp)⟩
  · rintro ⟨hlast, hroom⟩ a ha
    have hcases : a ∈ [2, 3, 4, 5, 6].map (fun i => Access.read (q + i)) ∨ a = .store n := by
      simpa [or_assoc] using ha
    rcases hcases with ha | rfl
    · exact reads_ok [2, 3, 4, 5, 6] (by decide) hlast a ha
    · exact hroom

/-- A descriptor behind the interface: an endpoint is stored, a HID descriptor is logged. -/
theorem descriptorReads_ok : (∀ a ∈ [Access.cast (some q), .read (q + 1)] ++
    (if b (q + 1) = endpointType then
      [Access.read (q + 2), .read (q + 3), .read (q + 4), .read (q + 5), .read (q + 6), .store n]
    else [.cast (some q), .read (q + 1)] ++
      if b (q + 1) = hidType then hidReads q (b (q + 5)).toNat else []), a.Ok len) ↔
    ((q + 1 : Nat) : Int) < len ∧
      (b (q + 1) = endpointType → ((q + 6 : Nat) : Int) < len ∧ n < 16) ∧
      (b (q + 1) = hidType → ((q + 5 + 3 * (b (q + 5)).toNat : Nat) : Int) < len) := by
  rw [forall_mem_append, headReads_ok]
  refine and_congr_right fun htype => ?_
  by_cases hend : b (q + 1) = endpointType
  · have hhid : ¬ b (q + 1) = hidType := by
      rw [hend]
      decide
    rw [if_pos hend, endpointReads_ok]
    exact ⟨fun h => ⟨fun _ => h, fun hh => absurd hh hhid⟩, fun h => h.1 hend⟩
  · rw [if_neg hend, forall_mem_append, headReads_ok]
    by_cases hhid : b (q + 1) = hidType
    · rw [if_pos hhid, hidReads_ok]
      exact ⟨fun h => ⟨fun he => absurd he hend, fun _ => h.2⟩, fun h => ⟨htype, h.2 hhid⟩⟩
    · rw [if_neg hhid]
      exact ⟨fun _ => ⟨fun he => absurd he hend, fun hh => absurd hh hhid⟩,
        fun _ => ⟨htype, nofun⟩⟩

/-- A round of the search keeps to the data if the descriptor it gets to does. -/
theorem touches_find : (∀ a ∈ touches b len (.find (visit b n) dev), a.Ok len) ↔
    (visit b n : Int) < len ∧ ((visit b (n + 1) : Int) < len →
      ((visit b (n + 1) + 1 : Nat) : Int) < len ∧
        (b (visit b (n + 1) + 1) = interfaceType → ((visit b (n + 1) + 7 : Nat) : Int) < len)) := by
  rw [touches, forall_mem_cons, next, ← visit_succ]
  refine and_congr Iff.rfl ?_
  generalize visit b (n + 1) = q
  by_cases hin : (q : Int) < len
  · rw [if_pos hin]
    simp only [hin, true_implies]
    rw [forall_mem_append, headReads_ok]
    refine and_congr Iff.rfl ?_
    constructor
    · intro hfields hinterface
      rw [if_pos hinterface] at hfields
      exact hfields (.read (q + 7)) (by simp)
    · intro hfields
      split
      · next hinterface =>
        intro a ha
        rcases mem_append.mp ha with ha | ha
        · exact reads_ok [5, 6, 7] (by decide) (hfields hinterface) a ha
        · split at ha
          · exact reads_ok [2] (by decide) (hfields hinterface) a ha
          · cases ha
      · exact nofun
  · rw [if_neg hin]
    exact ⟨fun _ h => absurd h hin, fun _ => nofun⟩

/-- So does a round of the loop over the endpoints. -/
theorem touches_collectAt : (∀ a ∈ touches b len (collectAt b dev driver k j), a.Ok len) ↔
    ((visit b (k + 1) + 4 : Nat) : Int) < len ∧
      if (found b k j).length < asked b k then
        (visit b (k + 1 + j) : Int) < len ∧ ((visit b (k + 2 + j) + 1 : Nat) : Int) < len ∧
          (b (visit b (k + 2 + j) + 1) = endpointType →
            ((visit b (k + 2 + j) + 6 : Nat) : Int) < len ∧ (found b k j).length < 16) ∧
          (b (visit b (k + 2 + j) + 1) = hidType →
            ((visit b (k + 2 + j) + 5 + 3 * (b (visit b (k + 2 + j) + 5)).toNat : Nat) : Int) < len)
      else 5 < len := by
  rw [collectAt, touches, forall_mem_cons, Device.numEpConfigs_withEndpoints, next,
    hop_visit_collect]
  refine and_congr Iff.rfl ?_
  show (∀ a ∈ (if (found b k j).length < asked b k then _ else _ : List Access), a.Ok len) ↔ _
  split
  · rw [forall_mem_cons]
    refine and_congr Iff.rfl ?_
    by_cases hin : (visit b (k + 2 + j) : Int) < len
    · rw [if_pos hin]
      exact descriptorReads_ok
    · rw [if_neg hin]
      constructor
      · intro h
        exact absurd rfl (h (.cast none) (by simp))
      · rintro ⟨htype, -⟩
        omega
  · exact forall_mem_singleton

end Touches

/-! ## Coming back -/

section Returns

variable (b : Nat → UInt8) (len : Int) (dev : Device)

/-- `InitializePhase2` returns. -/
def Returns : Prop := ∃ n dev' answer, phase2 b len dev n = .returned dev' answer

variable {b len} {k j : Nat}

/-- The loop over the endpoints ends with the last one that is asked for. -/
theorem exists_collecting (hroom : asked b k ≤ 16)
    (hin : ∀ i < j, (visit b (k + 2 + i) : Int) < len)
    (henough : asked b k ≤ (found b k j).length) :
    ∃ j' ≤ j, Collecting b len k j' ∧ (found b k j').length = asked b k := by
  classical
  have hex : ∃ j', asked b k ≤ (found b k j').length := ⟨j, henough⟩
  have hle : Nat.find hex ≤ j := Nat.find_min' hex henough
  have hspec := Nat.find_spec hex
  have hbefore : ∀ i < Nat.find hex, (found b k i).length < asked b k := fun i hi =>
    not_le.mp (Nat.find_min hex hi)
  refine ⟨Nat.find hex, hle, fun i hi => ?_, ?_⟩
  · exact ⟨hbefore i hi, hin i (hi.trans_le hle), fun _ => (hbefore i hi).trans_le hroom⟩
  · refine Nat.le_antisymm ?_ hspec
    cases hj : Nat.find hex with
    | zero => exact Nat.zero_le _
    | succ i =>
      have hlast := hbefore i (by omega)
      exact (length_found_succ_le b k i).trans hlast

variable (b len)

/-- **On which data `InitializePhase2` returns**: they are not a configuration; or the length bytes
lead out of them and there is no interface with a driver on the way; or at most 16 endpoints are
asked for behind the first such interface, and they come before the end. -/
theorem returns_iff : Returns b len dev ↔ b 1 ≠ configurationType ∨
    (∃ n, Searching b len n ∧ len ≤ visit b (n + 1)) ∨
    ∃ k driver, FirstDriver b len k driver ∧ asked b k ≤ 16 ∧
      ∃ j, (∀ i < j, (visit b (k + 2 + i) : Int) < len) ∧ asked b k ≤ (found b k j).length := by
  constructor
  · rintro ⟨n, dev', answer, hrun⟩
    have hreached := reached_phase2 b len dev n
    rw [hrun] at hreached
    cases hreached with
    | invalid htype => exact .inl htype
    | out _ hn hout => exact .inr (.inl ⟨_, hn, hout⟩)
    | @done k j driver _ hk hj hdone =>
      exact .inr (.inr ⟨k, driver, hk, hdone.trans hj.length_le, j, fun i hi => (hj i hi).2.1,
        hdone⟩)
  · have hreturns : ∀ dev' answer, Reached b len dev (.returned dev' answer) →
        Returns b len dev := by
      intro dev' answer h
      obtain ⟨n, hn⟩ := reached_iff_phase2.mp h
      exact ⟨n, dev', answer, hn⟩
    by_cases htype : b 1 = configurationType
    · rintro (hne | ⟨n, hn, hout⟩ | ⟨k, driver, hk, hroom, j, hin, henough⟩)
      · exact absurd htype hne
      · exact hreturns _ _ (.out htype hn hout)
      · obtain ⟨j', -, hj', hdone⟩ := exists_collecting hroom hin henough
        exact hreturns _ _ (.done htype hk hj' (Nat.le_of_eq hdone.symm))
    · exact fun _ => hreturns _ _ (.invalid htype)

end Returns

/-- A device before its configuration is known. -/
def sampleDevice : Device := ⟨fun _ => none, fun _ => ⟨⟨0⟩, .kControl, 0, 0⟩, 0, 2⟩

/-- A configuration descriptor of length 0. -/
def zeroLength : Nat → UInt8 := fun i => if i = 1 then 2 else 0

/-- The reader stays where it is, and nothing is returned. -/
theorem zeroLength_not_returns :
    (∀ n, phase2 zeroLength 9 sampleDevice (n + 1) = .find 0 sampleDevice) ∧
      ¬ Returns zeroLength 9 sampleDevice := by
  have hvisit : ∀ n, visit zeroLength n = 0 := by
    intro n
    induction n with
    | zero => rfl
    | succ n ih =>
      rw [visit_succ, ih]
      rfl
  have hsearching : ∀ n, Searching zeroLength 9 n := by
    intro n i _ _
    rw [hvisit]
    decide
  have hrun : ∀ n, phase2 zeroLength 9 sampleDevice (n + 1) = .find 0 sampleDevice := by
    intro n
    rw [phase2_find rfl (hsearching n), hvisit]
  refine ⟨hrun, ?_⟩
  rintro ⟨n, dev', answer, hreturned⟩
  cases n with
  | zero => cases hreturned
  | succ n =>
    rw [hrun n] at hreturned
    cases hreturned

/-! ## Keeping to the data -/

section Safe

variable (b : Nat → UInt8) (len : Int) (dev : Device) {s : Phase2} {p : Nat}

/-- `InitializePhase2` casts no null pointer, reads what was sent and stores inside of its array. -/
def Safe : Prop := ∀ n, ∀ a ∈ touches b len (phase2 b len dev n), a.Ok len

/-- The length covers the bytes that are looked at, of each descriptor that is come to. -/
structure Covered : Prop where
  header : 1 < len
  search : b 1 = configurationType → ∀ n, Searching b len n → (visit b (n + 1) : Int) < len →
    ((visit b (n + 1) + 1 : Nat) : Int) < len ∧
      (b (visit b (n + 1) + 1) = interfaceType → ((visit b (n + 1) + 7 : Nat) : Int) < len)
  /-- As long as endpoints are missing there is a descriptor, and room for an endpoint. -/
  endpoints : b 1 = configurationType → ∀ k driver, FirstDriver b len k driver → ∀ j,
    (found b k j).length < asked b k → ((visit b (k + 2 + j) + 1 : Nat) : Int) < len ∧
      (b (visit b (k + 2 + j) + 1) = endpointType →
        ((visit b (k + 2 + j) + 6 : Nat) : Int) < len ∧ (found b k j).length < 16) ∧
      (b (visit b (k + 2 + j) + 1) = hidType →
        ((visit b (k + 2 + j) + 5 + 3 * (b (visit b (k + 2 + j) + 5)).toNat : Nat) : Int) < len)

variable {b len dev} {k j : Nat} {driver : ClassDriver}

theorem Safe.of_reached (h : Safe b len dev) (hs : Reached b len dev s) :
    ∀ a ∈ touches b len s, a.Ok len := by
  obtain ⟨n, rfl⟩ := reached_iff_phase2.mp hs
  exact h n

theorem endpointAt_ne_none (h : endpointAt b p ≠ none) : b (p + 1) = endpointType := by
  by_contra hne
  exact h (if_neg hne)

/-- While endpoints are missing, the loop goes on. -/
theorem Safe.collecting (h : Safe b len dev) (htype : b 1 = configurationType)
    (hk : FirstDriver b len k driver) (hj : (found b k j).length < asked b k) :
    Collecting b len k j := by
  induction j with
  | zero => exact collecting_zero
  | succ j ih =>
    have hmore : (found b k j).length < asked b k :=
      (found_initial b k (Nat.le_succ j)).length_le.trans_lt hj
    have hcollecting := ih hmore
    have htouch := touches_collectAt.mp (h.of_reached (.collect htype hk hcollecting))
    rw [if_pos hmore] at htouch
    obtain ⟨-, -, hbyte, hend, -⟩ := htouch
    exact hcollecting.succ hmore (by omega) fun hne => (hend (endpointAt_ne_none hne)).2

theorem Searching.inside {n : Nat} (hn : Searching b len n) (hpos : 0 < len) :
    (visit b n : Int) < len := by
  cases n with
  | zero => exact hpos
  | succ n => exact (hn (n + 1) (by omega) (Nat.le_refl _)).1

theorem Collecting.inside (hj : Collecting b len k j) (hk : FirstDriver b len k driver) :
    (visit b (k + 1 + j) : Int) < len := by
  cases j with
  | zero => exact hk.inside
  | succ j =>
    have hplace : k + 1 + (j + 1) = k + 2 + j := by omega
    rw [hplace]
    exact (hj j (Nat.lt_succ_self j)).2.1

theorem driverAt_eq_some (h : driverAt b p = some driver) : b (p + 1) = interfaceType := by
  by_contra hne
  have hnone : driverAt b p = none := if_neg hne
  rw [hnone] at h
  cases h

/-- What the length covers is safe to touch, in every state that occurs. -/
theorem Covered.touches_ok (h : Covered b len) (hs : Reached b len dev s) :
    ∀ a ∈ touches b len s, a.Ok len := by
  have hheader := h.header
  cases hs with
  | start =>
    rw [touches, forall_mem_cons, forall_mem_singleton]
    exact ⟨Option.some_ne_none 0, hheader⟩
  | invalid htype => exact nofun
  | find htype hn =>
    exact touches_find.mpr ⟨hn.inside (by omega), h.search htype _ hn⟩
  | out htype hn hout => exact nofun
  | @collect k j driver htype hk hj =>
    -- the interface itself reaches to its protocol byte
    have hiface := (h.search htype k hk.searching hk.inside).2 (driverAt_eq_some hk.driver)
    refine touches_collectAt.mpr ⟨by omega, ?_⟩
    split
    · next hmore => exact ⟨hj.inside hk, h.endpoints htype k driver hk j hmore⟩
    · omega
  | done htype hk hj hdone => exact nofun
  | fault htype hk hj hmore hbad => exact nofun

variable (b len dev)

/-- **On which data `InitializePhase2` is safe.** -/
theorem safe_iff : Safe b len dev ↔ Covered b len := by
  constructor
  · intro h
    constructor
    · exact h.of_reached .start (.read 1) (by simp [touches])
    · intro htype n hn hin
      exact (touches_find.mp (h.of_reached (.find htype hn))).2 hin
    · intro htype k driver hk j hmore
      have hcollecting := h.collecting htype hk hmore
      have htouch := touches_collectAt.mp (h.of_reached (.collect htype hk hcollecting))
      rw [if_pos hmore] at htouch
      exact htouch.2.2
  · intro h n
    exact h.touches_ok (reached_phase2 b len dev n)

end Safe

/-- A keyboard that asks for one endpoint, and sends none. -/
def noEndpoint : Nat → UInt8 := fun i =>
  ([9, 2, 18, 0, 1, 1, 0, 0x80, 50, 9, 4, 0, 0, 1, 3, 1, 1, 0] : List UInt8).getD i 0

/-- The null pointer behind the end of the data is cast. -/
theorem noEndpoint_not_safe :
    Access.cast none ∈ touches noEndpoint 18 (phase2 noEndpoint 18 sampleDevice 2) ∧
      ¬ Safe noEndpoint 18 sampleDevice := by
  have hcast : Access.cast none ∈ touches noEndpoint 18 (phase2 noEndpoint 18 sampleDevice 2) := by
    decide
  exact ⟨hcast, fun hsafe => hsafe 2 _ hcast rfl⟩

end UnagiOs.Usb
