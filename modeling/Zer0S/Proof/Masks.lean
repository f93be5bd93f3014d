import Zer0S.Lib.Last
import Zer0S.Spec.Pic

/-!
# Which interrupts get through

Each call changes one bit of one mask. But the interrupts of the slave also go through the line of the
master that the slave is on, and `pic_remap` masks that line.

* `masked_run`: after any calls, the mask bit of a line is what the last call for the line says.
* `delivers_iff`: the enabled interrupts get through exactly when none of them is at the slave, or there was
  a call for line 2.
-/

namespace Zer0S

open Lib

variable {s : Pics} {calls : List PicCall} {c : PicCall} {i : ℕ}

/-- The line is masked at its controller. -/
def masked (s : Pics) (i : ℕ) : Bool := if i < 8 then s.master.mask.getLsbD i else s.slave.mask.getLsbD (i - 8)

/-- The last call for the line. -/
def lastCall (calls : List PicCall) (i : ℕ) : Option PicCall := lastWith (fun c => c.irq.toNat = i) calls

/-- The call is one of `pic_enable_irq`. -/
def PicCall.enables : PicCall → Bool
  | .enable _ => true
  | .disable _ => false

/-- **The enabled interrupts get through** after the calls: a line whose last call enabled it is not
masked at its controller, and if it is at the slave, line 2 of the master is not masked either, unless the
last call for that line disabled it. -/
def Delivers (calls : List PicCall) (s : Pics) : Prop :=
  ∀ i < 16, (∃ c, lastCall calls i = some c ∧ c.enables = true) → masked s i = false ∧
    (8 ≤ i → (¬ ∃ c, lastCall calls 2 = some c ∧ c.enables = false) → masked s 2 = false)

/-! ## The start -/

/-- No controller expects a word of its initialisation. -/
def Ready (s : Pics) : Prop := s.master.expected = [] ∧ s.slave.expected = []

theorem picRemap_ready (s : Pics) : Ready (picRemap s) := ⟨rfl, rfl⟩

/-- The slave is on line 2 of the master. -/
theorem picRemap_attached (s : Pics) :
    (picRemap s).master.cascade = 1 <<< 2 ∧ (picRemap s).slave.cascade = 2 := ⟨rfl, rfl⟩

/-- Only line 1 is not masked. -/
theorem masked_picRemap (s : Pics) : ∀ i < 16, masked (picRemap s) i = decide (i ≠ 1) := by
  have hmaster : (picRemap s).master.mask = 0xFD := rfl
  have hslave : (picRemap s).slave.mask = 0xFF := rfl
  unfold masked
  rw [hmaster, hslave]
  decide

/-! ## Calls -/

theorem Pic.data_mask {p : Pic} (h : p.expected = []) (v : Byte) : p.data v = { p with mask := v } := by
  unfold Pic.data
  rw [h]

/-- A change of bit `k` of a mask, to `x`. -/
def ChangesBit (f : Byte → ℕ → Byte) (x : Bool) : Prop :=
  ∀ b k, ∀ j < 8, (f b k).getLsbD j = if j = k then x else b.getLsbD j

theorem changesBit_clear : ChangesBit byteClear false := by
  intro b k j hj
  rw [getLsbD_byteClear hj]
  by_cases hjk : j = k <;> simp [hjk]

theorem changesBit_set : ChangesBit byteSet true := by
  intro b k j hj
  rw [getLsbD_byteSet hj]
  by_cases hjk : j = k <;> simp [hjk]

/-- **One bit of one mask** is what a call changes. -/
theorem masked_change {f : Byte → ℕ → Byte} {x : Bool} (hf : ChangesBit f x) (hs : Ready s) {irq : BitVec 8}
    (hirq : irq.toNat < 16) : Ready (outb (irqPort irq).1 (f (inb (irqPort irq).1 s) (irqPort irq).2.toNat) s) ∧
      ∀ i < 16, masked (outb (irqPort irq).1 (f (inb (irqPort irq).1 s) (irqPort irq).2.toNat) s) i =
        if irq.toNat = i then x else masked s i := by
  obtain ⟨hmaster, hslave⟩ := hs
  by_cases hlow : irq < 8
  · have hport : irqPort irq = (pic1Data, irq) := if_pos hlow
    have hlow : irq.toNat < 8 := hlow
    rw [hport]
    have hout : ∀ v, outb pic1Data v s = { s with master := { s.master with mask := v } } := by
      intro v
      rw [← Pic.data_mask hmaster v]
      rfl
    rw [hout]
    refine ⟨⟨hmaster, hslave⟩, ?_⟩
    intro i _
    unfold masked
    by_cases hi : i < 8
    · rw [if_pos hi, if_pos hi, hf _ _ i hi]
      simp only [eq_comm]
      rfl
    · rw [if_neg hi, if_neg hi, if_neg (by omega)]
  · have hport : irqPort irq = (pic2Data, irq - 8) := if_neg hlow
    have hhigh : 8 ≤ irq.toNat := not_lt.1 hlow
    have hsub : (irq - 8).toNat = irq.toNat - 8 := by
      rw [BitVec.toNat_sub_of_le hhigh]
      rfl
    rw [hport]
    have hout : ∀ v, outb pic2Data v s = { s with slave := { s.slave with mask := v } } := by
      intro v
      rw [← Pic.data_mask hslave v]
      rfl
    rw [hout]
    refine ⟨⟨hmaster, hslave⟩, ?_⟩
    intro i hi16
    unfold masked
    by_cases hi : i < 8
    · rw [if_pos hi, if_pos hi, if_neg (by omega)]
    · have hsame : i - 8 = irq.toNat - 8 ↔ irq.toNat = i := by omega
      rw [if_neg hi, if_neg hi, hf _ _ (i - 8) (by omega), hsub]
      simp only [hsame]
      rfl

/-- What a call does. -/
theorem masked_exec (hs : Ready s) (hc : c.irq.toNat < 16) : Ready (picExec s c) ∧
    ∀ i < 16, masked (picExec s c) i = if c.irq.toNat = i then !c.enables else masked s i := by
  cases c with
  | enable irq => exact masked_change changesBit_clear hs hc
  | disable irq => exact masked_change changesBit_set hs hc

/-- **The masks after any calls**, line by line. -/
theorem masked_run (hcalls : ∀ c ∈ calls, c.irq.toNat < 16) (s : Pics) (hi : i < 16) :
    masked (calls.foldl picExec (picRemap s)) i = ((lastCall calls i).map fun c => !c.enables).getD (decide (i ≠ 1)) := by
  have hobs : ∀ s, Ready s → ∀ c ∈ calls, masked (picExec s c) i =
      if decide (c.irq.toNat = i) = true then !c.enables else masked s i := by
    intro s hs c hc
    rw [(masked_exec hs (hcalls c hc)).2 i hi]
    simp only [decide_eq_true_eq]
  have hkeep : ∀ s, Ready s → ∀ c ∈ calls, Ready (picExec s c) :=
    fun s hs c hc => (masked_exec hs (hcalls c hc)).1
  rw [← masked_picRemap s i hi]
  exact (foldl_lastWith _ picExec (fun s => masked s i) _ Ready hobs hkeep (picRemap_ready s)).2

theorem lastCall_none : lastCall calls i = none ↔ ∀ c ∈ calls, c.irq.toNat ≠ i := by
  unfold lastCall
  rw [lastWith_eq_none]
  simp

/-- **Delivery.** The slave is on line 2 of the master. For every sequence of calls after `pic_remap`, the
enabled interrupts get through exactly when there is no line at the slave among them, or some call named
line 2. -/
theorem delivers_iff (hcalls : ∀ c ∈ calls, c.irq.toNat < 16) (s : Pics) :
    ((picRemap s).master.cascade = 1 <<< 2 ∧ (picRemap s).slave.cascade = 2) ∧
    (Delivers calls (calls.foldl picExec (picRemap s)) ↔
      ((∃ i, 8 ≤ i ∧ i < 16 ∧ ∃ c, lastCall calls i = some c ∧ c.enables = true) →
        ∃ c ∈ calls, c.irq.toNat = 2)) := by
  have hline := masked_run hcalls s (show 2 < 16 by norm_num)
  refine ⟨picRemap_attached s, ?_⟩
  constructor
  · rintro h ⟨i, h8, h16, hlast⟩
    by_contra hnone
    -- line 2 is as `pic_remap` left it
    have hnot : lastCall calls 2 = none := lastCall_none.2 fun c hc h2 => hnone ⟨c, hc, h2⟩
    have hclear := (h i h16 hlast).2 h8 (by rw [hnot]; simp)
    rw [hline, hnot] at hclear
    exact absurd hclear (by decide)
  · intro h i h16 hlast
    obtain ⟨c, hc, hon⟩ := hlast
    constructor
    · rw [masked_run hcalls s h16, hc, Option.map_some, hon]
      rfl
    · intro h8 hline2
      obtain ⟨c₂, hc₂, h2⟩ := h ⟨i, h8, h16, c, hc, hon⟩
      cases hlast2 : lastCall calls 2 with
      | none => exact absurd h2 (lastCall_none.1 hlast2 c₂ hc₂)
      | some d =>
        have hd : d.enables = true := by
          by_contra hoff
          exact hline2 ⟨d, hlast2, Bool.eq_false_iff.2 hoff⟩
        rw [hline, hlast2, Option.map_some, hd]
        rfl

/-- With line 2 enabled first, a line at the slave gets through. -/
theorem delivers_both : Delivers [.enable 2, .enable 12] (([.enable 2, .enable 12] : List PicCall).foldl picExec
    (picRemap ⟨⟨0, 0, 0, 0, []⟩, ⟨0, 0, 0, 0, []⟩⟩)) :=
  (delivers_iff (by decide) _).2.2 fun _ => ⟨.enable 2, by decide, by decide⟩

/-- `pic_enable_irq(8)` right after `pic_remap`: line 2 of the master stays masked. -/
theorem slave_not_delivered :
    masked (picExec (picRemap ⟨⟨0, 0, 0, 0, []⟩, ⟨0, 0, 0, 0, []⟩⟩) (.enable 8)) 8 = false ∧
    masked (picExec (picRemap ⟨⟨0, 0, 0, 0, []⟩, ⟨0, 0, 0, 0, []⟩⟩) (.enable 8)) 2 = true ∧
      ¬ Delivers [.enable 8] (([.enable 8] : List PicCall).foldl picExec
        (picRemap ⟨⟨0, 0, 0, 0, []⟩, ⟨0, 0, 0, 0, []⟩⟩)) := by
  refine ⟨by decide, by decide, ?_⟩
  intro h
  have hlast : ∃ c, lastCall [.enable 8] 8 = some c ∧ c.enables = true := ⟨.enable 8, by decide, rfl⟩
  have hnone : lastCall [.enable 8] 2 = none := by decide
  have hclear := (h 8 (by norm_num) hlast).2 le_rfl (by rw [hnone]; simp)
  exact absurd hclear (by decide)

end Zer0S
