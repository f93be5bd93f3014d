import Zer0S.Spec.System

/-!
# The controllers after `pic_remap`

* `pics_outb`: what a write does to masks and initialisation words is what `Pic` says.
* `acknowledge_remapped`: with the masks of `pic_remap`, the processor only ever gets the vector of the
  keyboard, when line 1 has a request and nothing is in service.
* `endOfInterrupt_of_only`: the command ends the service of the one line in service.
-/

namespace Zer0S

open Lib

variable {c : Controller} {d d' : Devices} {n : Fin 8} {v : Byte}

/-! ## Masks and initialisation words -/

/-- The controllers without their lines. -/
def Devices.pics (d : Devices) : Pics := ⟨d.master.pic, d.slave.pic⟩

theorem endOfInterrupt_pic (c : Controller) : c.endOfInterrupt.pic = c.pic := by
  unfold Controller.endOfInterrupt
  split <;> rfl

theorem command_pic (v : Byte) (c : Controller) : (c.command v).pic = c.pic.command v := by
  by_cases h4 : v.getLsbD 4
  · simp only [Controller.command, h4, if_true]
  · simp only [Controller.command, Pic.command, h4]
    by_cases h20 : v = 0x20
    · rw [if_neg (by simp), if_pos h20, if_neg (by simp), endOfInterrupt_pic]
    · rw [if_neg (by simp), if_neg h20, if_neg (by simp)]

/-- **Writes** do to masks and initialisation words what they do without lines. -/
theorem pics_outb (port : BitVec 16) (v : Byte) (d : Devices) : (d.outb port v).pics = outb port v d.pics := by
  unfold Devices.outb outb Devices.pics
  split_ifs
  · rw [← command_pic]
  · rfl
  · rw [← command_pic]
  · rfl
  · rfl

/-! ## Requests -/

@[simp] theorem line_requests (up : Bool) (m : Fin 8) :
    (c.line n up).requests m = if m = n then up else c.requests m := by
  unfold Controller.line
  exact Function.update_apply _ _ _ _

theorem find_finRange {p : Fin 8 → Bool} (hn : p n = true) (hlow : ∀ m < n, p m = false) :
    (List.finRange 8).find? p = some n := by
  rw [List.find?_eq_some_iff_getElem]
  refine ⟨hn, n, by simp, by simp, ?_⟩
  intro j hj
  simpa using hlow ⟨j, by omega⟩ hj

theorem find_finRange_none {p : Fin 8 → Bool} : (List.finRange 8).find? p = none ↔ ∀ n, p n = false := by
  simp [List.find?_eq_none]

/-- Nothing is passed on when all lines are masked. -/
theorem next_all_masked (h : ∀ n, c.asks n = false) : c.next = none := by
  unfold Controller.next
  split
  · rfl
  · rename_i n hn
    have hs := List.find?_some hn
    rw [h n, Bool.or_false] at hs
    rw [if_pos hs]

/-- With only one line that can ask, and nothing in service. -/
theorem next_one (hn : ∀ m, m ≠ n → c.asks m = false) (hs : ∀ m, c.service m = false) :
    c.next = if c.asks n then some n else none := by
  unfold Controller.next
  by_cases ha : c.asks n
  · rw [find_finRange (n := n) (by simp [ha]) fun m hm => by simp [hs m, hn m (ne_of_lt hm)]]
    simp [ha, hs n]
  · have hall : ∀ m, (c.service m || c.asks m) = false := by
      intro m
      by_cases hm : m = n
      · simpa [hm, hs n] using ha
      · simp [hs m, hn m hm]
    rw [find_finRange_none.2 hall, if_neg ha]

/-- The command ends the service of the only line in service. -/
theorem endOfInterrupt_of_only (h : ∀ m, c.service m = decide (m = n)) :
    c.endOfInterrupt = { c with service := fun _ => false } := by
  have hf : (List.finRange 8).find? c.service = some n := by
    apply find_finRange
    · simp [h]
    · intro m hm
      simp [h, ne_of_lt hm]
  have hnone : Function.update c.service n false = fun _ => false := by
    funext m
    by_cases hm : m = n
    · rw [hm, Function.update_self]
    · rw [Function.update_of_ne hm, h, decide_eq_false hm]
  unfold Controller.endOfInterrupt
  simp only [hf, hnone]

/-! ## After `pic_remap` -/

/-- The controllers as `pic_remap` leaves them. -/
def remapped : Pics := ⟨⟨32, 4, icw4, 0xFD, []⟩, ⟨40, 2, icw4, 0xFF, []⟩⟩

theorem picRemap_eq (s : Pics) : picRemap s = remapped := rfl

/-- The writes are those of `pic_remap`. -/
theorem picRemapWrites_eq (s : Pics) : picRemapWrites.foldl (fun s w => outb w.1 w.2 s) s = picRemap s := rfl

theorem asks_master (hp : c.pic = remapped.master) (n : Fin 8) : c.asks n = (decide (n = 1) && c.requests 1) := by
  have hmask : ∀ n : Fin 8, (!remapped.master.mask.getLsbD n) = decide (n = 1) := by decide
  unfold Controller.asks
  rw [hp, hmask]
  by_cases hn : n = 1 <;> simp [hn]

theorem asks_slave (h : d.pics = remapped) (n : Fin 8) : d.slave.asks n = false := by
  have hp : d.slave.pic = remapped.slave := congrArg Pics.slave h
  have hmask : ∀ n : Fin 8, (!remapped.slave.mask.getLsbD n) = false := by decide
  unfold Controller.asks
  rw [hp, hmask, Bool.and_false]

/-- **Only the keyboard.** What the processor gets when nothing is in service. -/
theorem acknowledge_remapped (h : d.pics = remapped) (hs : ∀ n, d.master.service n = false) :
    d.acknowledge = if d.master.requests 1 then some (33, { d with master := (d.master.line 2 false).acknowledge 1 })
      else none := by
  have hslave : d.slave.next = none := next_all_masked (asks_slave h)
  have hp : (d.master.line 2 false).pic = remapped.master := congrArg Pics.master h
  have hnext : (d.master.line 2 false).next = if d.master.requests 1 then some 1 else none := by
    have hasks := asks_master hp
    have hreq : (d.master.line 2 false).requests 1 = d.master.requests 1 := line_requests _ _
    have hothers : ∀ m, m ≠ 1 → (d.master.line 2 false).asks m = false := by
      intro m hm
      rw [hasks m, decide_eq_false hm, Bool.false_and]
    rw [next_one hothers hs, hasks 1, hreq]
    simp
  have hvector : (d.master.line 2 false).vector 1 = 33 := by
    unfold Controller.vector
    rw [hp]
    rfl
  unfold Devices.acknowledge
  rw [hslave, Option.isSome_none]
  by_cases hr : d.master.requests 1
  · rw [if_pos hr] at hnext
    simp only [hnext, if_pos hr, hvector]
  · rw [if_neg hr] at hnext
    simp only [hnext, if_neg hr]

/-- The line is in service then, and has no request. -/
theorem acknowledge_service (h : d.pics = remapped) (hs : ∀ n, d.master.service n = false) (n : Fin 8) :
    ((d.master.line 2 false).acknowledge 1).service n = decide (n = 1) := by
  have hp : (d.master.line 2 false).pic = remapped.master := congrArg Pics.master h
  have hmode : remapped.master.mode.getLsbD 1 = false := rfl
  unfold Controller.acknowledge
  simp only [hp, hmode, Bool.false_eq_true, if_false]
  by_cases hn : n = 1
  · rw [hn, Function.update_self, decide_eq_true rfl]
  · rw [Function.update_of_ne hn, decide_eq_false hn]
    exact hs n

/-! ## The 8042 -/

/-- A scancode is loaded from the keyboard when the buffer is empty. -/
theorem load_some (h : d.load = some d') : ∃ b queue, d.ps2.full = false ∧ d.ps2.queue = b :: queue ∧
    d' = { d with ps2 := ⟨b, true, queue⟩, master := d.master.line Devices.keyboardLine true } := by
  unfold Devices.load at h
  split at h
  · rename_i b queue hfull hqueue
    exact ⟨b, queue, hfull, hqueue, (Option.some.inj h).symm⟩
  · cases h

end Zer0S
