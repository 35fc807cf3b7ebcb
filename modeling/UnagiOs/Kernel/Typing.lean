import UnagiOs.Kernel.ConsoleMain

/-!
# From the keyboard to the commands

The kernel and the console together: a section of `console_main` that takes a datum from the FIFO
does with it what the console does. `typed_commands`: in every interleaving of interrupts, task
switches and sections in which no key is lost, the console runs the commands that were typed, and
once no key is on its way, all of them.
-/

namespace UnagiOs

/-- What `console_main` takes from its FIFO. -/
def Kernel.consoleTakes (k : Kernel) : KernelOp → List Int
  | .execute _ =>
    if k.cpu.tr = k.taskConsole ∧ k.phaseConsole = .loop ∧ k.usage .console ≠ 0 then
      (k.dequeue .console).elim [] fun r => [r.2]
    else []
  | _ => []

/-- A step of the kernel and what the console does in it. -/
def desktop (hankaku : Int → UInt8) :
    Transducer (Kernel × Shell) KernelOp (List (Option Command)) where
  step s op :=
    (kernelMachine.step s.1 op).bind fun k =>
      ((consoleLoop hankaku).run s.2 (s.1.consoleTakes op)).map fun r => ((k, r.1), r.2)

section Runs

variable {hankaku : Int → UInt8} {k : Kernel} {ops : List KernelOp} {l : List Int}

/-- The kernel does not depend on the console: both run side by side. -/
theorem desktop_run {k' : Kernel} {sh sh' : Shell} {answers : List (Option Command)}
    (hk : kernelMachine.run k ops = some k')
    (hsh : (consoleLoop hankaku).run sh (kernelMachine.emitted Kernel.consoleTakes k ops) =
      some (sh', answers)) :
    ∃ rounds, (desktop hankaku).run (k, sh) ops = some ((k', sh'), rounds) ∧
      rounds.flatten = answers := by
  induction ops generalizing k sh answers with
  | nil =>
    obtain rfl := Option.some.inj hk
    obtain ⟨rfl, rfl⟩ := Prod.mk.inj (Option.some.inj hsh)
    exact ⟨[], rfl, rfl⟩
  | cons op ops ih =>
    obtain ⟨k₁, hstep, hk⟩ := Option.bind_eq_some_iff.mp hk
    rw [Machine.emitted_cons hstep, Transducer.run_append] at hsh
    obtain ⟨⟨sh₁, first⟩, hfirst, hsh⟩ := Option.bind_eq_some_iff.mp hsh
    obtain ⟨⟨sh₂, rest⟩, hrest, heq⟩ := Option.map_eq_some_iff.mp hsh
    obtain ⟨rfl, rfl⟩ := Prod.mk.inj heq
    obtain ⟨rounds, hrun, hflat⟩ := ih hk hrest
    refine ⟨first :: rounds, ?_, ?_⟩
    · have hone : (desktop hankaku).step (k, sh) op = some ((k₁, sh₁), first) := by
        show (kernelMachine.step k op).bind _ = _
        rw [hstep, Option.bind_some]
        show ((consoleLoop hankaku).run sh (k.consoleTakes op)).map _ = _
        rw [hfirst]
        rfl
      rw [Transducer.run, hone, Option.bind_some, hrun]
      rfl
    · rw [List.flatten_cons, hflat]

/-- Among what the console takes, the keys are those that it receives. -/
theorem filter_consoleTakes (h : k.OnTheWay l) (op : KernelOp) :
    (k.consoleTakes op).filter isKey = k.received op := by
  cases op with
  | irq i data => rfl
  | tick => rfl
  | execute focus =>
    obtain ⟨-, first, second, hq, -⟩ := h
    unfold Kernel.consoleTakes Kernel.received
    by_cases hloop : k.cpu.tr = k.taskConsole ∧ k.phaseConsole = .loop
    · rw [if_pos hloop]
      by_cases hempty : k.usage .console = 0
      · -- an empty FIFO answers with an error, which is no key
        have hnil : second = [] := by
          rw [hq.usage_console hloop.2] at hempty
          exact List.length_eq_zero_iff.mp (Int.natCast_eq_zero.mp hempty)
        subst hnil
        obtain ⟨k', hdeq⟩ := hq.dequeue_console_nil hloop.2
        rw [if_neg fun hc => hc.2.2 hempty, hdeq]
        rfl
      · rw [if_pos ⟨hloop.1, hloop.2, hempty⟩]
    · rw [if_neg hloop, if_neg fun hc => hloop ⟨hc.1, hc.2.1⟩]
      rfl

theorem filter_emitted (h : k.OnTheWay l) (hops : ∀ op ∈ ops, op.FromDevices) :
    (kernelMachine.emitted Kernel.consoleTakes k ops).filter isKey =
      kernelMachine.emitted Kernel.received k ops := by
  induction ops generalizing k l with
  | nil => rfl
  | cons op ops ih =>
    obtain ⟨k', l', hstep, hl', -⟩ := kernel_conveys.step k op l h (hops op List.mem_cons_self)
    rw [Machine.emitted_cons hstep, Machine.emitted_cons hstep, List.filter_append,
      filter_consoleTakes h, ih hl' fun op hop => hops op (List.mem_cons_of_mem _ hop)]

theorem scancodes_filter (is : List Int) : scancodes (is.filter isKey) = scancodes is := by
  rw [scancodes, List.filter_filter]
  simp only [Bool.and_self]
  rfl

end Runs

/-- The keys that are pressed, from the start of the keyboard on. -/
def pressedKeys (early : List Int) (ops : List KernelOp) : List Int :=
  (early.take 512).filter isKey ++ ops.flatMap KernelOp.pressed

/-- **From the keyboard to the commands**: if no key is lost and none is outside the tables, then in
every interleaving the console is not stuck and has run a prefix of the commands that were typed;
once no key is on its way it has run all of them, and its line is the one that was typed since. -/
theorem typed_commands (hankaku : Int → UInt8) (ctl : SHTCTL) (s : SheetId)
    (xS yS xE yE bgColor charBgColor charColor : Int) (early : List Int) (ops : List KernelOp)
    (hops : ∀ op ∈ ops, op.FromDevices)
    (hkeeps : ∀ k₀, kernelStart early = some k₀ → kernelMachine.AllSteps Kernel.KeepsKeys k₀ ops)
    (hcodes : ∀ code ∈ scancodes (pressedKeys early ops), ¬ OutsideTables code) :
    ∃ t k₀ k sh rounds,
      ((sheetTextboxAlloc ctl s xS yS xE yE bgColor charBgColor charColor).sheet0 s).textbox =
        some t ∧
      kernelStart early = some k₀ ∧
      (desktop hankaku).run (k₀, consoleMain hankaku t) ops = some ((k, sh), rounds) ∧
      rounds.flatten.reduceOption <+: Session.start.commands (scancodes (pressedKeys early ops)) ∧
      (k.keys = [] → rounds.flatten.reduceOption =
          Session.start.commands (scancodes (pressedKeys early ops)) ∧
        ∃ l, HoldsLine sh.d.t l ∧
          l.text = ((scancodes (pressedKeys early ops)).foldl Session.next .start).line) := by
  obtain ⟨k₀, hk₀, hway⟩ := kernelStart_onTheWay early
  obtain ⟨k, l, hrun, hl, -, hiff⟩ := kernel_conveys.run hway
    (Machine.AllSteps.of_mem fun op hop _ => hops op hop)
  have hline := hiff.mpr (hkeeps k₀ hk₀)
  rw [← hl.keys_eq, ← filter_emitted hway hops] at hline
  generalize hdata : kernelMachine.emitted Kernel.consoleTakes k₀ ops = is at hline
  -- the console gets a prefix of what is pressed
  have hsplit : scancodes (pressedKeys early ops) = scancodes is ++ scancodes k.keys := by
    show scancodes ((early.take 512).filter isKey ++ ops.flatMap KernelOp.pressed) = _
    rw [← hline, scancodes_append, scancodes_filter]
  obtain ⟨t, halloc, hempty⟩ := holdsLine_alloc ctl s xS yS xE yE bgColor charBgColor charColor
  have hconsole := (Follows.start hankaku hempty).run hankaku is
  have hin : ¬ ∃ code ∈ scancodes is, OutsideTables code := by
    rintro ⟨code, hcode, hout⟩
    refine hcodes code ?_ hout
    rw [hsplit]
    exact List.mem_append_left _ hcode
  rw [if_neg hin, ← hdata] at hconsole
  obtain ⟨sh, answers, hsh, hanswers, hfollows⟩ := hconsole
  obtain ⟨rounds, hdesk, hflat⟩ := desktop_run hrun hsh
  rw [hdata] at hanswers hfollows
  refine ⟨t, k₀, k, sh, rounds, halloc, hk₀, hdesk, ?_, fun hnil => ?_⟩
  · rw [hflat, hanswers, hsplit, Session.commands_append]
    exact List.prefix_append _ _
  · have hall : scancodes (pressedKeys early ops) = scancodes is := by
      rw [hsplit, hnil]
      exact List.append_nil _
    obtain ⟨l, hl, htext, -⟩ := hfollows.line
    rw [hflat, hanswers, hall]
    exact ⟨rfl, l, hl, htext⟩

/-- The loops of the tasks start; then `cls` and ENTER are typed, and the tasks go on. -/
def typesCls : List KernelOp :=
  List.replicate 7 (.execute true) ++
    [.irq .keymouse 302, .irq .keymouse 294, .irq .keymouse 287, .irq .keymouse 284, .tick] ++
    List.replicate 9 (.execute true)

/-- The console runs the command. -/
theorem typed_commands_cls : ∃ t k₀ k sh rounds,
    ((sheetTextboxAlloc narrowSheet 0 3 23 240 141 7 7 0).sheet0 0).textbox = some t ∧
    kernelStart [] = some k₀ ∧
    (desktop fun _ => 0).run (k₀, consoleMain (fun _ => 0) t) typesCls =
      some ((k, sh), rounds) ∧
    rounds.flatten.reduceOption = [.cls] := by
  have hkeeps : (kernelStart []).all fun k₀ =>
      decide (kernelMachine.AllSteps Kernel.KeepsKeys k₀ typesCls) := by
    decide +kernel
  have htyped : Session.start.commands (scancodes (pressedKeys [] typesCls)) = [.cls] := by
    decide +kernel
  obtain ⟨t, k₀, k, sh, rounds, ht, hk₀, hrun, -, hall⟩ :=
    typed_commands (fun _ => 0) narrowSheet 0 3 23 240 141 7 7 0 [] typesCls
      (by simp [typesCls, KernelOp.FromDevices])
      (fun k₀ hk₀ => of_decide_eq_true ((Option.all_eq_true _ _).mp hkeeps k₀ hk₀))
      (by decide +kernel)
  -- in the end no key is on its way any more
  have hkeys : (((sheetTextboxAlloc narrowSheet 0 3 23 240 141 7 7 0).sheet0 0).textbox.all
      fun t => (kernelStart []).all fun k₀ =>
        ((desktop fun _ => 0).run (k₀, consoleMain (fun _ => 0) t) typesCls).all
          fun r => decide (r.1.1.keys = [])) := by
    decide +kernel
  rw [ht, hk₀, Option.all_some, Option.all_some, hrun, Option.all_some,
    decide_eq_true_eq] at hkeys
  refine ⟨t, k₀, k, sh, rounds, ht, hk₀, hrun, ?_⟩
  rw [(hall hkeys).1, htyped]

end UnagiOs
