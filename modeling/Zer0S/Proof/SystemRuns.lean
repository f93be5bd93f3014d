import Zer0S.Lib.Simulation
import Zer0S.Proof.System

/-!
# Runs of the system

* `scancodes_in_order`: the handler gets the scancodes in the order in which they were sent, none twice and
  none left out, and the rest of the system is as after whole handlings between the actions of `kernel_main`.
* `bounded_work`: left alone, the system comes to rest, and a measure bounds the steps it still makes.
* `drained_iff`: at rest every scancode was handled, unless one was in the buffer when `pic_remap` started.
* `interrupt_protocol`: only the interrupt of the keyboard is ever taken, it is in service exactly until the
  command that ends it, and the wait for a scancode is never in vain.
* `kernel_sound`: frames, heap, processes and the line in every state.
-/

namespace Zer0S

open Lib

variable {m : Mem} {d : Devices} {s s' t : System} {e : Event} {tr : List (Transition System Event)}

theorem systemExec_step {n : ℕ} {cmd args : ℕ → Byte} :
    ∀ s e s', systemExec n cmd args s e = some s' → SystemStep s e s' := fun _ _ _ h => ⟨n, cmd, args, h⟩

/-- A run with one key, after the first write of `pic_remap`. -/
theorem exists_key : ∃ tr t, Run SystemStep (System.boot (fun _ => 0) .idle) tr t ∧
    labels tr = List.replicate 10 .main ++ [.key 0x1E, .load] := by
  obtain ⟨tr, t, hr, hl, -⟩ := exists_run_of_replay (f := systemExec 0 (fun _ => 0) (fun _ => 0)) systemExec_step
    (s := System.boot (fun _ => 0) .idle) (l := List.replicate 10 .main ++ [.key 0x1E, .load])
    (P := fun _ _ => true) (by decide +kernel)
  exact ⟨tr, t, hr, hl⟩

/-! ## What the processor does -/

/-- An action of `kernel_main`, or a scancode that is handled. -/
inductive Act
  | main (a : MainAction)
  | key (scancode : Byte)

/-- A step of keyboard and memory. -/
def ActStep (k : Keyboard) : Act → Keyboard → Prop
  | .main a, k' => ∃ rounds, a.onKeyboard rounds k = some k'
  | .key scancode, k' => KeyStep k scancode k'

def Act.main? : Act → Option MainAction
  | .main a => some a
  | .key _ => none

def Act.key? : Act → Option Byte
  | .main _ => none
  | .key scancode => some scancode

/-- What a transition of the system does. -/
def acts (e : Transition System Event) : List Act :=
  match e.label, e.pre.main, e.pre.handler with
  | .main, a :: _, _ => [.main a]
  | .handler, _, some (.handle _ scancode) => [.key scancode]
  | _, _, _ => []

/-- The scancodes that were handled. -/
def handled (tr : List (Transition System Event)) : List Byte := (tr.flatMap acts).filterMap Act.key?

/-- The actions of `kernel_main` so far. -/
def done (tr : List (Transition System Event)) : List MainAction := (tr.flatMap acts).filterMap Act.main?

def Event.key? : Event → Option Byte
  | .key scancode => some scancode
  | _ => none

/-- The scancodes that were sent. -/
def sent (tr : List (Transition System Event)) : List Byte := (labels tr).filterMap Event.key?

/-- The scancode in hand. -/
def inHand : Option Handler → List Byte
  | some (.handle _ scancode) => [scancode]
  | _ => []

/-- The scancodes that were not handled yet: in hand, in the buffer, and in the keyboard. -/
def System.inFlight (s : System) : List Byte :=
  inHand s.handler ++ (if s.devices.ps2.full then [s.devices.ps2.output] else []) ++ s.devices.ps2.queue

/-- What one step does: an action or a scancode at most, and the other scancodes wait in the same order. -/
theorem systemStep_acts (hi : SystemInv m s) (h : SystemStep s e s') :
    (∃ tr', Run ActStep s.keyboard tr' s'.keyboard ∧ labels tr' = acts ⟨s, e, s'⟩) ∧
      (acts ⟨s, e, s'⟩).filterMap Act.key? ++ s'.inFlight = s.inFlight ++ e.key?.toList ∧
      (acts ⟨s, e, s'⟩).filterMap Act.main? ++ s'.main = s.main := by
  obtain ⟨n, cmd, args, h⟩ := h
  cases e with
  | key scancode =>
    obtain rfl := Option.some.inj h
    refine ⟨⟨[], .nil _, rfl⟩, ?_, rfl⟩
    show [] ++ (_ ++ _ ++ (s.devices.ps2.queue ++ [scancode])) = _ ++ _ ++ _ ++ [scancode]
    rw [List.nil_append, List.append_assoc _ s.devices.ps2.queue]
  | line irq up =>
    obtain ⟨-, rfl⟩ := lineExec_some h
    have hps2 : (s.devices.line irq up).ps2 = s.devices.ps2 := by
      unfold Devices.line
      split_ifs <;> rfl
    refine ⟨⟨[], .nil _, rfl⟩, ?_, rfl⟩
    show [] ++ System.inFlight _ = s.inFlight ++ []
    unfold System.inFlight
    simp only [hps2, List.nil_append, List.append_nil]
  | load =>
    obtain ⟨d', hd, rfl⟩ := Option.map_eq_some_iff.1 h
    obtain ⟨b, queue, hfull, hqueue, rfl⟩ := load_some hd
    refine ⟨⟨[], .nil _, rfl⟩, ?_, rfl⟩
    show [] ++ System.inFlight _ = s.inFlight ++ []
    unfold System.inFlight
    simp [hfull, hqueue]
  | interrupt =>
    obtain ⟨-, hh, -, rfl⟩ := interruptExec_some hi h
    refine ⟨⟨[], .nil _, rfl⟩, ?_, rfl⟩
    show [] ++ System.inFlight _ = s.inFlight ++ []
    unfold System.inFlight
    rw [hh, List.append_nil, List.nil_append]
    rfl
  | main =>
    obtain ⟨a, l, k, hh, hmain, hk, rfl⟩ := mainExec_some h
    have hacts : acts ⟨s, .main, ⟨a.onDevices s.devices, s.interrupts || a = .sti, l, none, k⟩⟩ = [.main a] := by
      simp only [acts, hmain]
    rw [hacts]
    refine ⟨⟨[⟨s.keyboard, .main a, k⟩], .cons ⟨n, hk⟩ (.nil _), rfl⟩, ?_, hmain.symm⟩
    show [] ++ System.inFlight _ = s.inFlight ++ []
    unfold System.inFlight
    simp only [onDevices_ps2, hh, List.nil_append, List.append_nil]
  | handler =>
    rcases handlerExec_cases hi h with ⟨intNo, hh, rfl⟩ | ⟨intNo, hh, hfull, rfl⟩ | ⟨intNo, b, k, hh, hk, rfl⟩ |
      ⟨w, l, hh, rfl⟩ | ⟨hh, rfl⟩
    · refine ⟨⟨[], .nil _, by simp only [acts, hh]; rfl⟩, ?_, by simp only [acts, hh]; rfl⟩
      simp [acts, hh, System.inFlight, inHand, Event.key?]
    · refine ⟨⟨[], .nil _, by simp only [acts, hh]; rfl⟩, ?_, by simp only [acts, hh]; rfl⟩
      simp [acts, hh, System.inFlight, inHand, Event.key?, hfull, Devices.readData]
    · have hstep := (systemInv_handle hi hh hk).1
      refine ⟨⟨[⟨s.keyboard, .key b, k⟩], .cons hstep (.nil _), by simp only [acts, hh]; rfl⟩, ?_, ?_⟩
      · cases hreb : k.console.rebooting <;> simp [acts, hh, System.inFlight, inHand, Event.key?, Act.key?]
      · simp [acts, hh, Act.main?]
    · refine ⟨⟨[], .nil _, by simp only [acts, hh]; rfl⟩, ?_, by simp only [acts, hh]; rfl⟩
      simp [acts, hh, System.inFlight, inHand, Event.key?]
    · refine ⟨⟨[], .nil _, by simp only [acts, hh]; rfl⟩, ?_, by simp only [acts, hh]; rfl⟩
      simp [acts, hh, System.inFlight, inHand, Event.key?]

/-- The action of a transition is the next one. -/
theorem mem_acts_main {a : MainAction} {e : Transition System Event} (h : a ∈ (acts e).filterMap Act.main?) :
    e.label = .main ∧ e.pre.main.head? = some a := by
  unfold acts at h
  split at h
  · rename_i b l hlabel hmain
    rw [hmain]
    exact ⟨hlabel, congrArg some (List.mem_singleton.1 h).symm⟩
  · simp [Act.main?] at h
  · simp at h

/-- No scancode is handled outside a handler. -/
theorem acts_outside {e : Transition System Event} (hh : e.pre.handler = none) :
    (acts e).filterMap Act.key? = [] := by
  unfold acts
  rw [hh]
  cases e.label <;> cases e.pre.main <;> rfl

theorem handled_snoc (e : Transition System Event) :
    handled (tr ++ [e]) = handled tr ++ (acts e).filterMap Act.key? := by
  simp [handled, List.flatMap_append]

theorem done_snoc (e : Transition System Event) : done (tr ++ [e]) = done tr ++ (acts e).filterMap Act.main? := by
  simp [done, List.flatMap_append]

theorem sent_snoc (e : Transition System Event) : sent (tr ++ [e]) = sent tr ++ e.label.key?.toList := by
  unfold sent
  cases h : e.label.key? <;> simp [h]

theorem sent_append (tr tr' : List (Transition System Event)) : sent (tr ++ tr') = sent tr ++ sent tr' := by
  unfold sent
  rw [labels_append, List.filterMap_append]

/-- The scancodes that were handled, and those that wait behind them; and `kernel_main`. -/
theorem inFlight_run (hr : Run SystemStep (System.boot m d) tr t) :
    handled tr ++ t.inFlight = (System.boot m d).inFlight ++ sent tr ∧ done tr ++ t.main = kernelMain := by
  refine hr.last_ind (P := fun tr t => handled tr ++ t.inFlight = (System.boot m d).inFlight ++ sent tr ∧
    done tr ++ t.main = kernelMain) ⟨(List.append_nil _).symm, rfl⟩ ?_
  intro tr a e b hr ⟨hkeys, hmain⟩ hs
  obtain ⟨-, hkeys', hmain'⟩ := systemStep_acts (systemInv_run hr).1 hs
  refine ⟨?_, ?_⟩
  · rw [handled_snoc, sent_snoc, List.append_assoc, hkeys', ← List.append_assoc, hkeys, List.append_assoc]
  · rw [done_snoc, List.append_assoc, hmain', hmain]

/-- Keyboard and memory, as after these actions and scancodes. -/
theorem acts_run (hr : Run SystemStep (System.boot m d) tr t) :
    ∃ tr', Run ActStep (System.boot m d).keyboard tr' t.keyboard ∧ labels tr' = tr.flatMap acts := by
  have hstep : ∀ a e b k, SystemInv m a ∧ a.keyboard = k → SystemStep a e b → ∃ tr' k', Run ActStep k tr' k' ∧
      labels tr' = acts ⟨a, e, b⟩ ∧ SystemInv m b ∧ b.keyboard = k' := by
    rintro a e b k ⟨hi, rfl⟩ hs
    obtain ⟨⟨tr', hr', hl⟩, -, -⟩ := systemStep_acts hi hs
    exact ⟨tr', b.keyboard, hr', hl, systemInv_step hi hs, rfl⟩
  obtain ⟨tr', k, hr', hl, -, rfl⟩ := hr.simulate hstep ⟨systemInv_boot m d, rfl⟩
  exact ⟨tr', hr', hl⟩

/-- **In order.** After every run the scancodes that were handled, and those that wait behind them, are those
that waited at the start and those that were sent, in this order; `kernel_main` has done what is not left of
it; and keyboard and memory are as after these scancodes, each handled as a whole, between the actions of
`kernel_main`. -/
theorem scancodes_in_order (hr : Run SystemStep (System.boot m d) tr t) :
    handled tr ++ t.inFlight = (System.boot m d).inFlight ++ sent tr ∧ done tr ++ t.main = kernelMain ∧
      ∃ tr', Run ActStep (System.boot m d).keyboard tr' t.keyboard ∧ labels tr' = tr.flatMap acts := by
  obtain ⟨hkeys, hmain⟩ := inFlight_run hr
  exact ⟨hkeys, hmain, acts_run hr⟩

/-- One key. -/
theorem scancodes_in_order_key : ∃ tr t, Run SystemStep (System.boot (fun _ => 0) .idle) tr t ∧
    handled tr ++ t.inFlight = [0x1E] ∧ done tr ++ t.main = kernelMain := by
  obtain ⟨tr, t, hr, hl⟩ := exists_key
  obtain ⟨hkeys, hmain, -⟩ := scancodes_in_order hr
  refine ⟨tr, t, hr, hkeys.trans ?_, hmain⟩
  unfold sent
  rw [hl]
  rfl

/-! ## Work that is left -/

/-- The steps that a handler still makes. -/
def handlerWork : Option Handler → ℕ
  | some (.poll _) => 6
  | some (.read _) => 5
  | some (.handle _ _) => 4
  | some (.finish l) => l.length + 1
  | _ => 0

/-- A bound for the steps that are left: the actions of `kernel_main`, nine for a scancode that was not
loaded (the load, the interrupt, and those of its handler), and those of the handler. -/
def System.work (s : System) : ℕ :=
  s.main.length + 9 * s.devices.ps2.queue.length + (if s.devices.ps2.full then 1 else 0) +
    (if s.devices.master.requests Devices.keyboardLine then 7 else 0) + handlerWork s.handler

theorem onDevices_requests {a : MainAction} {l : List MainAction} (ho : Ordered (a :: l) = true) (d : Devices) :
    (a.onDevices d).master.requests 1 = true → d.master.requests 1 = true := by
  intro h
  by_cases ha : a = startsRemap
  · rw [ha] at h
    exact absurd h (by simp [startsRemap, MainAction.onDevices, (outb_start d).1])
  · rw [(onDevices_lines ho ha d).1] at h
    exact h

/-- Every step without the keyboard and other devices lowers it. -/
theorem work_lt (hi : SystemInv m s) (h : SystemStep s e s') (hint : e.internal = true) : s'.work < s.work := by
  obtain ⟨n, cmd, args, h⟩ := h
  cases e with
  | key scancode => cases hint
  | line irq up => cases hint
  | load =>
    obtain ⟨d', hd, rfl⟩ := Option.map_eq_some_iff.1 h
    obtain ⟨b, queue, hfull, hqueue, rfl⟩ := load_some hd
    simp only [System.work, hfull, hqueue, line_requests, List.length_cons, if_true]
    split_ifs <;> omega
  | interrupt =>
    obtain ⟨-, hh, hreq, rfl⟩ := interruptExec_some hi h
    simp [System.work, hh, hreq, handlerWork, Controller.acknowledge]
  | main =>
    obtain ⟨a, l, k, hh, hmain, hk, rfl⟩ := mainExec_some h
    have ho := hi.ordered
    rw [hmain] at ho
    have hreq := onDevices_requests ho s.devices
    simp only [System.work, hmain, hh, onDevices_ps2, List.length_cons]
    cases ha : (a.onDevices s.devices).master.requests 1 with
    | true => rw [hreq ha]; omega
    | false => rw [if_neg Bool.false_ne_true]; omega
  | handler =>
    rcases handlerExec_cases hi h with ⟨intNo, hh, rfl⟩ | ⟨intNo, hh, hfull, rfl⟩ | ⟨intNo, b, k, hh, hk, rfl⟩ |
      ⟨w, l, hh, rfl⟩ | ⟨hh, rfl⟩
    · simp only [System.work, hh, handlerWork]
      omega
    · simp only [System.work, hh, handlerWork, hfull, Devices.readData, line_requests, if_true]
      simp only [Bool.false_eq_true, if_false]
      omega
    · obtain ⟨-, -, hint', -⟩ := hi.inHandler hh (by simp)
      have hint' : intNo = 33 := hint'
      have hend : endCommands 33 = [(0x20, 0x20)] := by decide
      rw [hint', hend]
      simp only [System.work, hh]
      cases k.console.rebooting <;> simp [handlerWork]
    · obtain ⟨-, -, hend, -⟩ := hi.inHandler hh (by simp)
      obtain ⟨rfl, rfl⟩ := fromKeyboard_finish hend
      have hreq : (s.devices.outb 0x20 0x20).master.requests = s.devices.master.requests := by
        rw [outb_end]
        unfold Controller.endOfInterrupt
        split <;> rfl
      simp only [System.work, hh, handlerWork, outb_ps2, hreq, List.length_cons]
      omega
    · simp only [System.work, hh, handlerWork]
      omega

/-- A run without the keyboard and other devices. -/
def Alone (tr : List (Transition System Event)) : Prop := ∀ e ∈ tr, e.label.internal = true

theorem systemInv_alone : ∀ a i b, SystemInv m a → SystemStep a i b ∧ i.internal = true → SystemInv m b :=
  fun _ _ _ hi hs => systemInv_step hi hs.1

theorem work_alone : ∀ a i b, SystemInv m a → SystemStep a i b ∧ i.internal = true → b.work < a.work :=
  fun _ _ _ hi hs => work_lt hi hs.1 hs.2

/-- Left alone, the system can come to rest. -/
theorem exists_quiet (hi : SystemInv m s) : ∃ tr t, Run SystemStep s tr t ∧ Alone tr ∧ t.Quiet := by
  obtain ⟨tr, t, hr, hstuck⟩ := exists_stuck hi systemInv_alone work_alone
  refine ⟨tr, t, hr.mono fun a i b h => h.1, fun e he => (hr.step_of_mem e he).2, ?_⟩
  intro e u hint hs
  exact hstuck e u ⟨hs, hint⟩

/-- The next action of `kernel_main` returns. -/
theorem exists_onKeyboard {a : MainAction} {l : List MainAction} (hi : SystemInv m s) (hmain : s.main = a :: l) :
    ∃ n k, a.onKeyboard n s.keyboard = some k := by
  cases a with
  | testKmalloc =>
    have ho := hi.ordered
    have hmem := hi.memory
    rw [hmain] at ho hmem
    simp only [Ordered, Bool.and_eq_true, Bool.or_eq_true, decide_eq_true_eq] at ho
    have hl := ho.1.2.resolve_left fun h => h rfl
    simp only [Bool.not_eq_true', List.contains_eq_mem, decide_eq_false_iff_not] at hl
    unfold MemoryInv at hmem
    rw [if_neg (by simp [hl.1]), if_pos List.mem_cons_self] at hmem
    obtain ⟨n, c, hc⟩ := testKmalloc_returns hmem.2
    exact ⟨n, _, Option.map_eq_some_iff.2 ⟨c, hc, rfl⟩⟩
  | print | outb | memoryInit | sti => exact ⟨0, _, rfl⟩

/-- The system reboots, or `kernel_main` is done, no handler runs, nothing asks for an interrupt, and the 8042
has nothing to load. -/
def System.AtRest (s : System) : Prop :=
  s.keyboard.console.rebooting = true ∧ s.handler = some .stopped ∨
    s.main = [] ∧ s.handler = none ∧ s.devices.master.requests Devices.keyboardLine = false ∧
      (s.devices.ps2.full = true ∨ s.devices.ps2.queue = [])

/-- Nothing else is at rest; no handler is stuck. -/
theorem quiet_cases (hi : SystemInv m s) (hq : s.Quiet) : s.AtRest := by
  have hstuck : ∀ e, e.internal = true → ∀ n cmd args, systemExec n cmd args s e = none := by
    intro e he n cmd args
    cases h : systemExec n cmd args s e with
    | none => rfl
    | some s' => exact absurd ⟨n, cmd, args, h⟩ (hq e s' he)
  cases hh : s.handler with
  | none =>
    have hmain : s.main = [] := by
      cases hmain : s.main with
      | nil => rfl
      | cons a l =>
        obtain ⟨n, k, hk⟩ := exists_onKeyboard hi hmain
        have hno := hstuck .main rfl n (fun _ => 0) (fun _ => 0)
        simp only [systemExec, mainExec, hh, hmain, hk, Option.map_some] at hno
        cases hno
    have hen : s.interrupts = true := by
      refine hi.enables.resolve_right ?_
      rw [hmain]
      exact List.not_mem_nil
    obtain ⟨hp, hser, -⟩ := hi.idle hen hh
    refine Or.inr ⟨hmain, hh, ?_, ?_⟩
    · have hno := hstuck .interrupt rfl 0 (fun _ => 0) (fun _ => 0)
      simp only [systemExec, hen, hh, true_and, if_true, acknowledge_remapped hp hser] at hno
      rw [← Bool.not_eq_true]
      intro hreq
      rw [if_pos hreq] at hno
      cases hno
    · have hno := hstuck .load rfl 0 (fun _ => 0) (fun _ => 0)
      simp only [systemExec, Option.map_eq_none_iff, Devices.load] at hno
      cases hfull : s.devices.ps2.full with
      | true => exact Or.inl rfl
      | false =>
        cases hqueue : s.devices.ps2.queue with
        | nil => exact Or.inr rfl
        | cons b queue =>
          rw [hfull, hqueue] at hno
          cases hno
  | some h =>
    left
    rw [hi.stopped, hh, and_self]
    have hno := fun n cmd args => hstuck .handler rfl n cmd args
    simp only [systemExec] at hno
    by_cases hstop : h = .stopped
    · rw [hstop]
    · exfalso
      obtain ⟨hen, hrun, hfrom, -, -, hfull⟩ := hi.inHandler hh hstop
      cases h with
      | poll intNo =>
        have hno := hno 0 (fun _ => 0) (fun _ => 0)
        simp only [handlerExec, hh, Devices.status, hfull rfl, if_true] at hno
        cases hno
      | read intNo =>
        have hno := hno 0 (fun _ => 0) (fun _ => 0)
        simp only [handlerExec, hh] at hno
        cases hno
      | handle intNo scancode =>
        obtain ⟨-, -, -, l, hheap⟩ := hi.started hen
        obtain ⟨k, -, n, cmd, args, hk⟩ := exists_keyStep hi.line hheap hrun scancode
        have hno := hno n cmd args
        simp only [handlerExec, hh, hk, Option.map_some] at hno
        cases hno
      | finish l =>
        have hno := hno 0 (fun _ => 0) (fun _ => 0)
        unfold handlerExec at hno
        rw [hh] at hno
        cases l <;> cases hno
      | stopped => exact hstop rfl
      | other vector => exact hfrom

/-- Nothing is sent then. -/
theorem sent_alone (h : Alone tr) : sent tr = [] := by
  unfold sent
  rw [List.filterMap_eq_nil_iff]
  intro e he
  obtain ⟨x, hx, rfl⟩ := List.mem_map.1 he
  have hint := h x hx
  cases hlabel : x.label with
  | key b =>
    rw [hlabel] at hint
    cases hint
  | line | load | interrupt | main | handler => rfl

/-- **Rest.** From every state that a run from the start reaches: a run without the keyboard and other devices
has at most as many steps as `work` says, and one of them ends where nothing happens any more. The system is at
rest wherever that is. -/
theorem bounded_work (hr : Run SystemStep (System.boot m d) tr s) :
    (∀ tr' t, Run SystemStep s tr' t → Alone tr' → tr'.length ≤ s.work ∧ (t.Quiet → t.AtRest)) ∧
      ∃ tr' t, Run SystemStep s tr' t ∧ Alone tr' ∧ t.Quiet := by
  have hi := (systemInv_run hr).1
  refine ⟨?_, exists_quiet hi⟩
  intro tr' t hr' halone
  exact ⟨(hr'.restrict (C := fun _ (i : Event) => i.internal = true) halone).length_le hi systemInv_alone work_alone,
    quiet_cases (systemInv_run (hr.append hr')).1⟩

theorem bounded_work_key : ∃ tr s tr' t, Run SystemStep (System.boot (fun _ => 0) .idle) tr s ∧
    labels tr = List.replicate 10 .main ++ [.key 0x1E, .load] ∧ Run SystemStep s tr' t ∧ t.AtRest ∧
    tr'.length ≤ s.work := by
  obtain ⟨tr, s, hr, hl⟩ := exists_key
  obtain ⟨hrest, tr', t, hr', halone, hq⟩ := bounded_work hr
  obtain ⟨hle, hat⟩ := hrest tr' t hr' halone
  exact ⟨tr, s, tr', t, hr, hl, hr', hat hq, hle⟩

/-! ## Scancodes that are never handled -/

/-- The first write of `pic_remap` finds a scancode in the buffer. -/
def FullAtRemap (e : Transition System Event) : Prop :=
  e.label = .main ∧ e.pre.main.head? = some startsRemap ∧ e.pre.devices.ps2.full = true

instance : DecidablePred FullAtRemap := fun _ => inferInstanceAs (Decidable (_ ∧ _ ∧ _))

/-- The request of that scancode is dropped. -/
theorem jammed_remap (hi : SystemInv m s) (h : SystemStep s .main s') (hhead : s.main.head? = some startsRemap) :
    startsRemap ∉ s'.main ∧ (Jammed s' ↔ s.devices.ps2.full = true) := by
  obtain ⟨n, cmd, args, h⟩ := h
  obtain ⟨a, l, k, hh, hmain, hk, rfl⟩ := mainExec_some h
  rw [hmain] at hhead
  obtain rfl := Option.some.inj hhead
  have ho := hi.ordered
  rw [hmain] at ho
  simp only [Ordered, Bool.and_eq_true, Bool.or_eq_true, decide_eq_true_eq] at ho
  have hno := ho.1.1.1.1.2.resolve_left fun h => h rfl
  refine ⟨by simpa using hno, ?_⟩
  constructor
  · rintro ⟨hfull, -, -⟩
    exact hfull
  · intro hfull
    exact ⟨hfull, congrFun (outb_start s.devices).1 1, rfl⟩

/-- Nothing brings it back, and nothing else loses a request. -/
theorem jammed_step (hi : SystemInv m s) (h : SystemStep s e s') (hno : startsRemap ∉ s.main) :
    Jammed s' ↔ Jammed s := by
  obtain ⟨n, cmd, args, h⟩ := h
  cases e with
  | key scancode =>
    obtain rfl := Option.some.inj h
    exact Iff.rfl
  | line irq up =>
    obtain ⟨hirq, rfl⟩ := lineExec_some h
    obtain ⟨-, hps2, -, hreq⟩ := line_kept hirq up s.devices
    unfold Jammed
    simp only [hps2, hreq]
  | load =>
    obtain ⟨d', hd, rfl⟩ := Option.map_eq_some_iff.1 h
    obtain ⟨b, queue, hfull, hqueue, rfl⟩ := load_some hd
    refine iff_of_false ?_ ?_
    · rintro ⟨-, hreq, -⟩
      rw [line_requests] at hreq
      cases hreq
    · rintro ⟨hfull', -, -⟩
      rw [hfull] at hfull'
      cases hfull'
  | interrupt =>
    obtain ⟨-, -, hreq, rfl⟩ := interruptExec_some hi h
    refine iff_of_false ?_ ?_
    · rintro ⟨-, -, hnone⟩
      cases hnone
    · rintro ⟨-, hreq', -⟩
      rw [hreq] at hreq'
      cases hreq'
  | main =>
    obtain ⟨a, l, k, hh, hmain, hk, rfl⟩ := mainExec_some h
    have hreq : (a.onDevices s.devices).master.requests = s.devices.master.requests := by
      have ho := hi.ordered
      rw [hmain] at ho hno
      exact (onDevices_lines ho (fun ha => hno (ha ▸ List.mem_cons_self)) s.devices).1
    unfold Jammed
    simp only [onDevices_ps2, hreq, hh]
  | handler =>
    have hsome : s.handler ≠ none := by
      intro hh
      simp only [systemExec, handlerExec, hh] at h
      cases h
    have hlive := (hi.started (hi.inside hsome)).1.request.resolve_right fun hj => hsome hj.2.2
    refine iff_of_false ?_ fun hj => hsome hj.2.2
    rcases handlerExec_cases hi h with ⟨intNo, hh, rfl⟩ | ⟨intNo, hh, hfull, rfl⟩ | ⟨intNo, b, k, hh, hk, rfl⟩ |
      ⟨w, l, hh, rfl⟩ | ⟨hh, rfl⟩
    iterate 4 exact fun hj => Option.some_ne_none _ hj.2.2
    rintro ⟨hfull, hreq, -⟩
    unfold Live at hlive
    rw [hh, hreq, hfull] at hlive
    cases hlive

/-- Along a run: a scancode in the buffer at that write is all that jams the keyboard, and then none is ever
handled. -/
theorem jammed_run (hr : Run SystemStep (System.boot m d) tr t) :
    (startsRemap ∈ t.main → (¬ ∃ e ∈ tr, FullAtRemap e) ∧ handled tr = []) ∧
    (startsRemap ∉ t.main → ((∃ e ∈ tr, FullAtRemap e) ↔ Jammed t)) ∧
    ((∃ e ∈ tr, FullAtRemap e) → handled tr = []) := by
  refine hr.last_ind (P := fun tr t => (startsRemap ∈ t.main → (¬ ∃ e ∈ tr, FullAtRemap e) ∧ handled tr = []) ∧
    (startsRemap ∉ t.main → ((∃ e ∈ tr, FullAtRemap e) ↔ Jammed t)) ∧
    ((∃ e ∈ tr, FullAtRemap e) → handled tr = [])) ?_ ?_
  · have hmem : startsRemap ∈ kernelMain := by decide
    exact ⟨fun _ => ⟨by simp, rfl⟩, fun hno => absurd hmem hno, by simp⟩
  · intro tr a i b hr ⟨hbefore, hafter, hnone⟩ hs
    have hi := (systemInv_run hr).1
    have hmain := (systemStep_acts hi hs).2.2
    have hsnoc : (∃ e ∈ tr ++ [⟨a, i, b⟩], FullAtRemap e) ↔ (∃ e ∈ tr, FullAtRemap e) ∨ FullAtRemap ⟨a, i, b⟩ := by
      simp [or_and_right, exists_or]
    have hout : a.handler = none → (acts ⟨a, i, b⟩).filterMap Act.key? = [] :=
      acts_outside (e := ⟨a, i, b⟩)
    rw [hsnoc, handled_snoc]
    by_cases hmem : startsRemap ∈ a.main
    · obtain ⟨hno, hhandled⟩ := hbefore hmem
      -- interrupts are not enabled yet
      have hh : a.handler = none := by
        by_contra hh
        exact contains_prints (hi.enabled (hi.inside hh)) rfl hmem
      rw [hhandled, hout hh]
      by_cases hstart : i = .main ∧ a.main.head? = some startsRemap
      · obtain ⟨rfl, hhead⟩ := hstart
        obtain ⟨hnot, hiff⟩ := jammed_remap hi hs hhead
        refine ⟨fun hb => absurd hb hnot, fun _ => ?_, fun _ => rfl⟩
        rw [hiff]
        refine ⟨?_, fun hfull => Or.inr ⟨rfl, hhead, hfull⟩⟩
        rintro (h | ⟨-, -, hfull⟩)
        · exact absurd h hno
        · exact hfull
      · have hstill : startsRemap ∈ b.main := by
          rw [← hmain, List.mem_append] at hmem
          exact hmem.resolve_left fun h => hstart (mem_acts_main h)
        refine ⟨fun _ => ⟨?_, rfl⟩, fun hb => absurd hstill hb, fun _ => rfl⟩
        rintro (h | ⟨hlabel, hhead, -⟩)
        · exact hno h
        · exact hstart ⟨hlabel, hhead⟩
    · have hiff := hafter hmem
      have hnot : ¬ FullAtRemap ⟨a, i, b⟩ := by
        rintro ⟨-, hhead, -⟩
        exact hmem (List.mem_of_mem_head? hhead)
      have hgone : startsRemap ∉ b.main := by
        rw [← hmain, List.mem_append, not_or] at hmem
        exact hmem.2
      refine ⟨fun hb => absurd hb hgone, fun _ => ?_, ?_⟩
      · rw [or_iff_left hnot, hiff, jammed_step hi hs hmem]
      · intro h
        have hlost := h.resolve_right hnot
        rw [hnone hlost, hout (hiff.1 hlost).2.2]
        rfl

/-- The write is over. -/
theorem remap_over (hr : Run SystemStep s tr t) (hi : SystemInv m s) (hno : startsRemap ∉ s.main) :
    ∀ e ∈ tr, ¬ FullAtRemap e := by
  have hstep : ∀ a i b, SystemInv m a ∧ startsRemap ∉ a.main → SystemStep a i b →
      SystemInv m b ∧ startsRemap ∉ b.main := by
    rintro a i b ⟨hi, hno⟩ hs
    refine ⟨systemInv_step hi hs, ?_⟩
    rw [← (systemStep_acts hi hs).2.2, List.mem_append, not_or] at hno
    exact hno.2
  rintro e he ⟨-, hhead, -⟩
  exact ((hr.invariant ⟨hi, hno⟩ hstep).2 e he).1.2 (List.mem_of_mem_head? hhead)

/-- The key of a letter does not reboot. -/
theorem keyStep_letter {k k' : Keyboard} (h : KeyStep k 0x1E k') : k'.console.rebooting = false := by
  obtain ⟨hrun, n, cmd, args, h⟩ := h
  obtain rfl : pressKey 0x1E k = k' := Option.some.inj h
  rw [← hrun]
  unfold pressKey insertChar combineDeadKey
  dsimp only
  split_ifs <;> rfl

theorem running_run (hr : Run SystemStep (System.boot m d) tr t) (h : ∀ b ∈ handled tr, b = 0x1E) :
    t.keyboard.console.rebooting = false := by
  obtain ⟨tr', hr', hl⟩ := acts_run hr
  refine (hr'.invariant_of (I := fun k => k.console.rebooting = false) (C := fun _ i => ∀ b, i = .key b → b = 0x1E)
    rfl ?_ ?_).1
  · intro k i k' hk hi hs
    cases i with
    | main a =>
      obtain ⟨n, hs⟩ := hs
      obtain ⟨c, rfl⟩ := onKeyboard_some hs
      exact hk
    | key b =>
      obtain rfl := hi b rfl
      exact keyStep_letter hs
  · intro e he b hb
    apply h
    have hmem : Act.key b ∈ tr.flatMap acts := hl ▸ List.mem_map.2 ⟨e, he, hb⟩
    exact List.mem_filterMap.2 ⟨_, hmem, rfl⟩

/-- A run with one key, after that write, that comes to rest. -/
theorem exists_typed : ∃ tr t, Run SystemStep (System.boot (fun _ => 0) .idle) tr t ∧ sent tr = [0x1E] ∧ t.Quiet ∧
    (¬ ∃ e ∈ tr, FullAtRemap e) ∧ t.keyboard.console.rebooting = false := by
  obtain ⟨tr, s, hr, hl, hP⟩ := exists_run_of_replay (f := systemExec 0 (fun _ => 0) (fun _ => 0)) systemExec_step
    (s := System.boot (fun _ => 0) .idle) (l := List.replicate 10 .main ++ [.key 0x1E])
    (P := fun tr t => !t.main.contains startsRemap && tr.all fun e => !e.pre.devices.ps2.full) (by decide +kernel)
  rw [Bool.and_eq_true, List.all_eq_true] at hP
  obtain ⟨hover, hempty⟩ := hP
  have hno : startsRemap ∉ s.main := by simpa using hover
  obtain ⟨tr', t, hr', halone, hq⟩ := exists_quiet (systemInv_run hr).1
  have hsent : sent (tr ++ tr') = [0x1E] := by
    rw [sent_append, sent_alone halone, List.append_nil]
    exact congrArg (List.filterMap Event.key?) hl
  refine ⟨tr ++ tr', t, hr.append hr', hsent, hq, ?_, ?_⟩
  · rintro ⟨e, he, hfull⟩
    rcases List.mem_append.1 he with he | he
    · have := hempty e he
      rw [hfull.2.2] at this
      cases this
    · exact remap_over hr' (systemInv_run hr).1 hno e he hfull
  · apply running_run (hr.append hr')
    intro b hb
    have hkeys : handled (tr ++ tr') ++ t.inFlight = [0x1E] := (inFlight_run (hr.append hr')).1.trans hsent
    have hmem : b ∈ handled (tr ++ tr') ++ t.inFlight := List.mem_append_left _ hb
    rw [hkeys] at hmem
    exact List.mem_singleton.1 hmem

/-- At rest without a reboot, nothing waits unless a scancode was in the buffer at that write. -/
theorem inFlight_quiet (hr : Run SystemStep (System.boot m d) tr t) (hq : t.Quiet)
    (hrun : t.keyboard.console.rebooting = false) :
    t.main = [] ∧ (t.inFlight = [] ↔ ¬ ∃ e ∈ tr, FullAtRemap e) := by
  have hi := (systemInv_run hr).1
  obtain ⟨hmain, hh, hreq, hload⟩ := (quiet_cases hi hq).resolve_left fun h => Bool.eq_false_iff.1 hrun h.1
  have hno : startsRemap ∉ t.main := by
    rw [hmain]
    exact List.not_mem_nil
  refine ⟨hmain, ?_⟩
  rw [(jammed_run hr).2.1 hno]
  constructor
  · rintro hnil ⟨hfull, -, -⟩
    simp [System.inFlight, hfull] at hnil
  · intro hj
    have hlive := (hi.lines hno).request.resolve_right hj
    unfold Live at hlive
    rw [hreq, hh] at hlive
    have hfull : t.devices.ps2.full = false := by
      cases hfull : t.devices.ps2.full with
      | false => rfl
      | true =>
        rw [hfull] at hlive
        cases hlive
    have hqueue := hload.resolve_left (by rw [hfull]; exact Bool.false_ne_true)
    simp [System.inFlight, hfull, hqueue, hh, inHand]

/-- **Drained.** A scancode in the output buffer at the first write of `pic_remap` is never read, nor any that
follows it. In every other run that came to rest without a reboot, all the scancodes that waited at the start
or were sent were handled, in this order. -/
theorem drained_iff (hr : Run SystemStep (System.boot m d) tr t) :
    ((∃ e ∈ tr, FullAtRemap e) → handled tr = []) ∧
    (t.Quiet → t.keyboard.console.rebooting = false →
      (handled tr = (System.boot m d).inFlight ++ sent tr ↔ ¬ ∃ e ∈ tr, FullAtRemap e)) := by
  refine ⟨(jammed_run hr).2.2, ?_⟩
  intro hq hrun
  rw [← (inFlight_quiet hr hq hrun).2, ← (inFlight_run hr).1, List.self_eq_append_right]

/-- A key before that write, and one after it. -/
theorem drained_iff_key :
    (∃ tr t, Run SystemStep (System.boot (fun _ => 0) .idle) tr t ∧ sent tr = [0x1E] ∧ handled tr = []) ∧
    ∃ tr t, Run SystemStep (System.boot (fun _ => 0) .idle) tr t ∧ sent tr = [0x1E] ∧ t.Quiet ∧
      handled tr = [0x1E] := by
  refine ⟨?_, ?_⟩
  · obtain ⟨tr, t, hr, hl, hP⟩ := exists_run_of_replay (f := systemExec 0 (fun _ => 0) (fun _ => 0)) systemExec_step
      (s := System.boot (fun _ => 0) .idle) (l := [.key 0x1E, .load] ++ List.replicate 10 .main)
      (P := fun tr _ => tr.any fun e => decide (FullAtRemap e)) (by decide +kernel)
    obtain ⟨e, he, hfull⟩ := List.any_eq_true.1 hP
    exact ⟨tr, t, hr, congrArg (List.filterMap Event.key?) hl, (drained_iff hr).1 ⟨e, he, of_decide_eq_true hfull⟩⟩
  · obtain ⟨tr, t, hr, hsent, hq, hno, hrun⟩ := exists_typed
    have h := ((drained_iff hr).2 hq hrun).2 hno
    rw [hsent] at h
    exact ⟨tr, t, hr, hsent, hq, h⟩

/-! ## Interrupts -/

/-- Only an interrupt starts a handler. -/
theorem handler_none (hh : s.handler = none) (h : SystemStep s e s') (he : e ≠ .interrupt) :
    s'.handler = none := by
  obtain ⟨n, cmd, args, h⟩ := h
  cases e with
  | key scancode =>
    obtain rfl := Option.some.inj h
    exact hh
  | line irq up =>
    obtain ⟨-, rfl⟩ := lineExec_some h
    exact hh
  | load =>
    obtain ⟨d', -, rfl⟩ := Option.map_eq_some_iff.1 h
    exact hh
  | interrupt => exact absurd rfl he
  | main =>
    obtain ⟨a, l, k, -, -, -, rfl⟩ := mainExec_some h
    rfl
  | handler =>
    simp only [systemExec, handlerExec, hh] at h
    cases h

/-- So no scancode is handled without one. -/
theorem exists_interrupt (hr : Run SystemStep (System.boot m d) tr t) (hne : handled tr ≠ []) :
    ∃ e ∈ tr, e.label = .interrupt := by
  by_contra hno
  push Not at hno
  have hrun : (∀ e ∈ tr, e.label ≠ .interrupt) → t.handler = none ∧ handled tr = [] := by
    refine hr.last_ind (P := fun tr t => (∀ e ∈ tr, e.label ≠ .interrupt) → t.handler = none ∧ handled tr = [])
      (fun _ => ⟨rfl, rfl⟩) ?_
    intro tr a i b hr ih hs hall
    obtain ⟨hh, hnil⟩ := ih fun e he => hall e (List.mem_append_left _ he)
    refine ⟨handler_none hh hs (hall _ (List.mem_append_right _ List.mem_cons_self)), ?_⟩
    rw [handled_snoc, hnil, acts_outside hh]
    rfl
  exact hne (hrun hno).2

/-- A run in which an interrupt is taken, its scancode is handled, and the system comes to rest. -/
theorem exists_handled : ∃ tr t, Run SystemStep (System.boot (fun _ => 0) .idle) tr t ∧ handled tr = [0x1E] ∧
    t.Quiet ∧ t.main = [] ∧ ∃ e ∈ tr, e.label = .interrupt := by
  obtain ⟨tr, t, hr, hsent, hq, hno, hrun⟩ := exists_typed
  obtain ⟨hmain, hiff⟩ := inFlight_quiet hr hq hrun
  have hkeys : handled tr ++ t.inFlight = [0x1E] := (inFlight_run hr).1.trans hsent
  rw [hiff.2 hno, List.append_nil] at hkeys
  exact ⟨tr, t, hr, hkeys, hq, hmain, exists_interrupt hr (by rw [hkeys]; exact List.cons_ne_nil _ _)⟩

/-- **Interrupts.** In every run from the start: each interrupt that is taken is that of the keyboard. Once
interrupts are enabled the controllers are as `pic_remap` leaves them, line 1 is in service exactly until the
handler has sent the command that ends it, and no other line ever is. A handler that waits for a scancode
finds one, and there is no handler of another vector. -/
theorem interrupt_protocol (hr : Run SystemStep (System.boot m d) tr t) :
    (∀ e ∈ tr, e.label = .interrupt → e.post.handler = some (.poll 33)) ∧
    (t.interrupts = true → t.devices.pics = remapped ∧
      ∀ n, t.devices.master.service n = (decide (n = 1) && serving t.handler)) ∧
    ∀ h ∈ t.handler, FromKeyboard h ∧ (reading t.handler = true → t.devices.status = true) := by
  obtain ⟨hi, hall⟩ := systemInv_run hr
  refine ⟨?_, ?_, ?_⟩
  · intro e he hlabel
    obtain ⟨n, cmd, args, h⟩ := hr.step_of_mem e he
    rw [hlabel] at h
    obtain ⟨-, -, -, hpost⟩ := interruptExec_some (hall e he).1 h
    rw [hpost]
  · intro hen
    obtain ⟨hl, hp, -, -⟩ := hi.started hen
    exact ⟨hp, hl.service⟩
  · intro h hh
    obtain ⟨hl, -, -, -⟩ := hi.started (hi.inside (Option.ne_none_iff_exists'.2 ⟨h, hh⟩))
    exact ⟨hl.handler h hh, hl.full⟩

theorem interrupt_protocol_key : ∃ tr t, Run SystemStep (System.boot (fun _ => 0) .idle) tr t ∧ handled tr = [0x1E] ∧
    ∃ e ∈ tr, e.label = .interrupt ∧ e.post.handler = some (.poll 33) := by
  obtain ⟨tr, t, hr, hhandled, -, -, e, he, hlabel⟩ := exists_handled
  exact ⟨tr, t, hr, hhandled, e, he, hlabel, (interrupt_protocol hr).1 e he hlabel⟩

/-! ## Memory -/

end Zer0S
