import Zer0S.Proof.Compare

/-!
# Searching in strings

`strstr` tries the positions of the haystack in order, with an inner loop that follows both strings as long
as they agree. `strchr` stops at the NUL before it compares it.

* `matchLoop`: the inner loop ends at the NUL of the needle exactly when the needle is a beginning of what is
  left of the haystack.
* `strstr_first`: `strstr` finds the first occurrence, and reads nothing behind the NULs.
* `strchr_contract_iff`: `strchr` keeps the contract of the C library exactly for characters other than the
  NUL.
-/

namespace Zer0S

open Lib

variable {m : Mem} {p q : Word} {a b s u v : List Byte} {i j k n : ℕ} {r : Option Word} {reads : StrReads}

/-- The first position of `u` at which `b` occurs. -/
def FirstAt (b u : List Byte) (k : ℕ) : Prop := b <+: u.drop k ∧ ∀ l < k, ¬ b <+: u.drop l

/-- The result of a search for `b` in the string `u` at `p`. -/
def Finds (p : Word) (b u : List Byte) (r : Option Word) : Prop :=
  (r = none ∧ ∀ k, ¬ b <+: u.drop k) ∨ ∃ k, r = some (p + BitVec.ofNat 64 k) ∧ FirstAt b u k

/-- The addresses that were read are in the strings of lengths `la` and `lb`, with their NULs. -/
structure ReadsIn (p q : Word) (la lb : ℕ) (reads : StrReads) : Prop where
  haystack : ∀ x ∈ reads.haystack, ∃ k ≤ la, x = p + BitVec.ofNat 64 k
  needle : ∀ x ∈ reads.needle, ∃ k ≤ lb, x = q + BitVec.ofNat 64 k

/-! ## Results -/

/-- A search has one result. -/
theorem Finds.unique {r' : Option Word} (h : Finds p b u r) (h' : Finds p b u r') : r = r' := by
  rcases h with ⟨rfl, hnone⟩ | ⟨k, rfl, hk, hfirst⟩
  · rcases h' with ⟨rfl, -⟩ | ⟨k', -, hk', -⟩
    · rfl
    · exact absurd hk' (hnone k')
  · rcases h' with ⟨-, hnone⟩ | ⟨k', rfl, hk', hfirst'⟩
    · exact absurd hk (hnone k)
    · have hle : k ≤ k' := not_lt.1 fun hlt => hfirst k' hlt hk'
      have hge : k' ≤ k := not_lt.1 fun hlt => hfirst' k hlt hk
      rw [le_antisymm hle hge]

/-- An occurrence at the start. -/
theorem Finds.here (p : Word) (h : b <+: u) : Finds p b u (some p) := by
  right
  refine ⟨0, by simp, h, fun l hl => absurd hl (Nat.not_lt_zero l)⟩

/-- No occurrence at the start: the search goes on behind the first character. -/
theorem Finds.skip (h0 : ¬ b <+: u) (h : Finds (p + 1) b u.tail r) : Finds p b u r := by
  have hdrop : ∀ k, u.tail.drop k = u.drop (k + 1) := fun k => by rw [List.drop_tail]
  rcases h with ⟨rfl, hnone⟩ | ⟨k, rfl, hk, hfirst⟩
  · left
    refine ⟨rfl, ?_⟩
    intro k
    cases k with
    | zero => exact h0
    | succ k =>
      rw [← hdrop]
      exact hnone k
  · right
    refine ⟨k + 1, ?_, ?_, ?_⟩
    · rw [offset_succ]
    · rw [← hdrop]
      exact hk
    · intro l hl
      cases l with
      | zero => exact h0
      | succ l =>
        rw [← hdrop]
        exact hfirst l (by omega)

theorem Finds.none_iff (h : Finds p b u r) : r = none ↔ ¬ b <:+: u := by
  have hoccurs : b <:+: u ↔ ∃ k, b <+: u.drop k := by
    constructor
    · rintro ⟨x, y, rfl⟩
      refine ⟨x.length, ?_⟩
      rw [List.append_assoc, List.drop_left]
      exact List.prefix_append b y
    · rintro ⟨k, hk⟩
      exact hk.isInfix.trans (List.drop_suffix k u).isInfix
  rw [hoccurs]
  rcases h with ⟨rfl, hnone⟩ | ⟨k, rfl, hk, -⟩
  · refine ⟨?_, fun _ => rfl⟩
    intro _
    rintro ⟨k, hk⟩
    exact hnone k hk
  · refine ⟨?_, fun h => absurd ⟨k, hk⟩ h⟩
    intro h
    cases h

/-! ## The inner loop -/

theorem ReadsIn.readH {t : StrMatch} (h : ReadsIn p q n k t.reads) (hi : i ≤ n) (ht : t.h = p + BitVec.ofNat 64 i) :
    ReadsIn p q n k t.readH.reads := by
  refine ⟨?_, h.needle⟩
  intro x hx
  rcases List.mem_cons.1 hx with rfl | hx
  · exact ⟨i, hi, ht⟩
  · exact h.haystack x hx

theorem ReadsIn.readN {t : StrMatch} (h : ReadsIn p q n k t.reads) (hj : j ≤ k) (ht : t.n = q + BitVec.ofNat 64 j) :
    ReadsIn p q n k t.readN.reads := by
  refine ⟨h.haystack, ?_⟩
  intro x hx
  rcases List.mem_cons.1 hx with rfl | hx
  · exact ⟨j, hj, ht⟩
  · exact h.needle x hx

/-- A beginning, character by character. -/
theorem prefix_heads (hu0 : u.headD 0 ≠ 0) (hv0 : v.headD 0 ≠ 0) :
    v <+: u ↔ v.headD 0 = u.headD 0 ∧ v.tail <+: u.tail := by
  cases u with
  | nil => exact absurd rfl hu0
  | cons c u =>
    cases v with
    | nil => exact absurd rfl hv0
    | cons d v => exact List.cons_prefix_cons

/-- **The inner loop** ends at the NUL of the needle exactly for a beginning of the haystack. -/
theorem matchLoop : ∀ (n : ℕ) {u v : List Byte} {i j : ℕ} {reads : StrReads}, v.length < n →
    LineFrom (bytesFrom m p) i u → LineFrom (bytesFrom m q) j v →
    ReadsIn p q (i + u.length) (j + v.length) reads →
    ∃ t, loop (matchBody m) n ⟨p + BitVec.ofNat 64 i, q + BitVec.ofNat 64 j, reads⟩ = some t ∧
      (m t.n = 0 ↔ v <+: u) ∧ ReadsIn p q (i + u.length) (j + v.length) t.readN.reads := by
  intro n
  induction n with
  | zero => intro u v i j reads hn; omega
  | succ n ih =>
    intro u v i j reads hn hu hv hreads
    set t : StrMatch := ⟨p + BitVec.ofNat 64 i, q + BitVec.ofNat 64 j, reads⟩ with ht
    have hx : m (p + BitVec.ofNat 64 i) = u.headD 0 := hu.head
    have hy : m (q + BitVec.ofNat 64 j) = v.headD 0 := hv.head
    have hH : ReadsIn p q (i + u.length) (j + v.length) t.readH.reads := hreads.readH (Nat.le_add_right ..) rfl
    have hHN : ReadsIn p q (i + u.length) (j + v.length) t.readH.readN.reads := hH.readN (Nat.le_add_right ..) rfl
    have hHNHN : ReadsIn p q (i + u.length) (j + v.length) t.readH.readN.readH.readN.reads :=
      (hHN.readH (Nat.le_add_right ..) rfl).readN (Nat.le_add_right ..) rfl
    by_cases hu0 : u.headD 0 = 0
    · -- the haystack ends
      have hbody : matchBody m t = .inr t.readH := if_pos (hx.trans hu0)
      refine ⟨t.readH, loop_done hbody, ?_, hHN⟩
      rw [hu.eq_nil hu0, List.prefix_nil]
      constructor
      · intro h
        exact hv.eq_nil (hy.symm.trans h)
      · rintro rfl
        exact hy
    · have hx0 : ¬ m (p + BitVec.ofNat 64 i) = 0 := fun h => hu0 (hx.symm.trans h)
      by_cases hv0 : v.headD 0 = 0
      · -- the needle ends
        have hbody : matchBody m t = .inr t.readH.readN :=
          (if_neg hx0).trans (if_pos (hy.trans hv0))
        refine ⟨t.readH.readN, loop_done hbody, ?_, hHN.readN (Nat.le_add_right ..) rfl⟩
        rw [hv.eq_nil hv0]
        exact ⟨fun _ => List.nil_prefix, fun _ => hy.trans hv0⟩
      · have hy0 : ¬ m (q + BitVec.ofNat 64 j) = 0 := fun h => hv0 (hy.symm.trans h)
        have hlu := length_tail hu0
        have hlv := length_tail hv0
        have hstart := prefix_heads hu0 hv0
        by_cases hxy : u.headD 0 = v.headD 0
        · have hbody : matchBody m t = .inl ⟨p + BitVec.ofNat 64 (i + 1), q + BitVec.ofNat 64 (j + 1),
              t.readH.readN.readH.readN.reads⟩ := by
            rw [← offset_next, ← offset_next]
            exact (if_neg hx0).trans ((if_neg hy0).trans (if_pos (hx.trans (hxy.trans hy.symm))))
          have hreads' : ReadsIn p q (i + 1 + u.tail.length) (j + 1 + v.tail.length)
              t.readH.readN.readH.readN.reads := by
            rw [show i + 1 + u.tail.length = i + u.length by omega, show j + 1 + v.tail.length = j + v.length by omega]
            exact hHNHN
          obtain ⟨t', hloop, hnul, hin⟩ := ih (by omega) (hu.next hu0) (hv.next hv0) hreads'
          rw [show i + 1 + u.tail.length = i + u.length by omega,
            show j + 1 + v.tail.length = j + v.length by omega] at hin
          refine ⟨t', (loop_next hbody).trans hloop, ?_, hin⟩
          rw [hnul, hstart]
          exact ⟨fun h => ⟨hxy.symm, h⟩, fun h => h.2⟩
        · have hbody : matchBody m t = .inr t.readH.readN.readH.readN :=
            (if_neg hx0).trans ((if_neg hy0).trans (if_neg fun h => hxy (hx.symm.trans (h.trans hy))))
          refine ⟨t.readH.readN.readH.readN, loop_done hbody, ?_, hHNHN.readN (Nat.le_add_right ..) rfl⟩
          rw [hstart]
          exact ⟨fun h => absurd h hy0, fun h => absurd h.1.symm hxy⟩

/-! ## `strstr` -/

/-- One round at a position: the needle is there, or the search goes on. -/
theorem strstrBody_round (hu : LineFrom (bytesFrom m p) i u) (hb : StringAt m q b) (hb0 : b ≠ [])
    (hu0 : u.headD 0 ≠ 0) (hn : b.length < n) (hreads : ReadsIn p q (i + u.length) b.length reads) :
    ∃ reads', ReadsIn p q (i + u.length) b.length reads' ∧ strstrBody n q m ⟨p + BitVec.ofNat 64 i, reads⟩ =
      if b <+: u then .inr (some (some (p + BitVec.ofNat 64 i), reads'))
      else .inl ⟨p + BitVec.ofNat 64 (i + 1), reads'⟩ := by
  set t : StrMatch := ⟨p + BitVec.ofNat 64 i, q, reads⟩ with ht
  have hx : m (p + BitVec.ofNat 64 i) = u.headD 0 := hu.head
  have hy : m q = b.headD 0 := by
    have := hb.lineFrom.head
    rwa [bytesFrom, BitVec.add_zero] at this
  have hq : q = q + BitVec.ofNat 64 0 := (BitVec.add_zero q).symm
  have hstart : ReadsIn p q (i + u.length) b.length t.readH.readH.readN.reads :=
    ((hreads.readH (t := t) (Nat.le_add_right ..) rfl).readH (Nat.le_add_right ..) rfl).readN (Nat.zero_le _) hq
  have hx0 : ¬ m (p + BitVec.ofNat 64 i) = 0 := fun h => hu0 (hx.symm.trans h)
  by_cases hxy : u.headD 0 = b.headD 0
  · have hin : ReadsIn p q (i + u.length) (0 + b.length) t.readH.readH.readN.reads := by
      rw [Nat.zero_add]
      exact hstart
    obtain ⟨t', hloop, hnul, hreads'⟩ := matchLoop n hn hu hb.lineFrom hin
    rw [Nat.zero_add] at hreads'
    rw [← hq] at hloop
    refine ⟨t'.readN.reads, hreads', ?_⟩
    have hloop : loop (matchBody m) n t.readH.readH.readN = some t' := hloop
    have hround : strstrBody n q m ⟨p + BitVec.ofNat 64 i, reads⟩ =
        if m t'.n = 0 then .inr (some (some (p + BitVec.ofNat 64 i), t'.readN.reads))
        else .inl ⟨p + BitVec.ofNat 64 i + 1, t'.readN.reads⟩ := by
      unfold strstrBody
      rw [if_neg hx0, if_pos (hx.trans (hxy.trans hy.symm))]
      dsimp only
      rw [hloop]
      rfl
    rw [hround, offset_next]
    simp only [hnul]
  · have hnot : ¬ b <+: u := by
      intro h
      cases b with
      | nil => exact hb0 rfl
      | cons d b =>
        cases u with
        | nil => exact hu0 rfl
        | cons c u => exact hxy (List.cons_prefix_cons.1 h).1.symm
    refine ⟨t.readH.readH.readN.reads, hstart, ?_⟩
    rw [if_neg hnot, ← offset_next]
    exact (if_neg hx0).trans (if_neg fun h => hxy (hx.symm.trans (h.trans hy)))

/-- **The outer loop** finds the first occurrence. -/
theorem strstrLoop (hb : StringAt m q b) (hb0 : b ≠ []) {k : ℕ} (hk : b.length < k) : ∀ (n : ℕ) {u : List Byte} {i : ℕ}
    {reads : StrReads}, u.length < n → LineFrom (bytesFrom m p) i u → ReadsIn p q (i + u.length) b.length reads →
    ∃ r reads', loop (strstrBody k q m) n ⟨p + BitVec.ofNat 64 i, reads⟩ = some (some (r, reads')) ∧
      Finds (p + BitVec.ofNat 64 i) b u r ∧ ReadsIn p q (i + u.length) b.length reads' := by
  intro n
  induction n with
  | zero => intro u i reads hn; omega
  | succ n ih =>
    intro u i reads hn hu hreads
    by_cases hu0 : u.headD 0 = 0
    · have hx : m (p + BitVec.ofNat 64 i) = u.headD 0 := hu.head
      have hbody : strstrBody k q m ⟨p + BitVec.ofNat 64 i, reads⟩ =
          .inr (some (none, (⟨p + BitVec.ofNat 64 i, q, reads⟩ : StrMatch).readH.reads)) := if_pos (hx.trans hu0)
      refine ⟨none, _, loop_done hbody, Or.inl ⟨rfl, ?_⟩, ?_⟩
      · intro l h
        rw [hu.eq_nil hu0, List.drop_nil, List.prefix_nil] at h
        exact hb0 h
      · exact hreads.readH (t := ⟨p + BitVec.ofNat 64 i, q, reads⟩) (Nat.le_add_right ..) rfl
    · obtain ⟨reads', hreads', hround⟩ := strstrBody_round hu hb hb0 hu0 hk hreads
      by_cases hstart : b <+: u
      · rw [if_pos hstart] at hround
        exact ⟨_, reads', loop_done hround, Finds.here _ hstart, hreads'⟩
      · have hlen := length_tail hu0
        have hsame : i + 1 + u.tail.length = i + u.length := by omega
        rw [if_neg hstart] at hround
        obtain ⟨r, reads'', hloop, hfinds, hin⟩ := ih (by omega) (hu.next hu0) (hsame ▸ hreads')
        rw [hsame] at hin
        rw [← offset_next] at hfinds
        exact ⟨r, reads'', (loop_next hround).trans hloop, hfinds.skip hstart, hin⟩

/-- **`strstr`** as a search. -/
theorem strstr_finds (ha : StringAt m p a) (hb : StringAt m q b) (hn : a.length + b.length < n) :
    ∃ r reads, strstr n p q m = some (r, reads) ∧ Finds p b a r ∧ ReadsIn p q a.length b.length reads := by
  have hy : m q = b.headD 0 := by
    have := hb.lineFrom.head
    rwa [bytesFrom, BitVec.add_zero] at this
  have hstart : ReadsIn p q a.length b.length ⟨[], [q]⟩ := by
    constructor
    · intro x hx
      cases hx
    · intro x hx
      refine ⟨0, Nat.zero_le _, ?_⟩
      rw [List.mem_singleton.1 hx]
      exact (BitVec.add_zero q).symm
  unfold strstr
  by_cases hb0 : b = []
  · have hnul : m q = 0 := by
      rw [hy, hb0]
      rfl
    refine ⟨some p, ⟨[], [q]⟩, if_pos hnul, ?_, hstart⟩
    rw [hb0]
    exact Finds.here p List.nil_prefix
  · have hne : ¬ m q = 0 := by
      rw [hy]
      intro h
      exact hb0 (hb.lineFrom.eq_nil h)
    have hreads : ReadsIn p q (0 + a.length) b.length ⟨[], [q]⟩ := by
      rw [Nat.zero_add]
      exact hstart
    have hna : a.length < n := by omega
    have hnb : b.length < n := by omega
    obtain ⟨r, reads, hloop, hfinds, hin⟩ := strstrLoop hb hb0 hnb n hna ha.lineFrom hreads
    rw [BitVec.add_zero] at hloop hfinds
    rw [Nat.zero_add] at hin
    refine ⟨r, reads, ?_, hfinds, hin⟩
    rw [if_neg hne, hloop]
    rfl

/-- **First occurrence.** `strstr` gives the lowest position of the needle in the haystack, the haystack
itself for an empty needle, and NULL exactly when there is none. It reads nothing behind the two NULs. -/
theorem strstr_first (ha : StringAt m p a) (hb : StringAt m q b) :
    ∃ r, (∃ n, ∀ k, n ≤ k → ∃ reads, strstr k p q m = some (r, reads) ∧
        (∀ x ∈ reads.haystack, ∃ i ≤ a.length, x = p + BitVec.ofNat 64 i) ∧
        ∀ x ∈ reads.needle, ∃ j ≤ b.length, x = q + BitVec.ofNat 64 j) ∧
      (∀ x, r = some x → ∃ i, x = p + BitVec.ofNat 64 i ∧ b <+: a.drop i ∧ ∀ l < i, ¬ b <+: a.drop l) ∧
      (r = none ↔ ¬ b <:+: a) ∧ (b = [] → r = some p) := by
  obtain ⟨r, -, -, hfinds, -⟩ := strstr_finds ha hb (Nat.lt_succ_self _)
  refine ⟨r, ⟨a.length + b.length + 1, ?_⟩, ?_, hfinds.none_iff, ?_⟩
  · intro k hk
    obtain ⟨r', reads, hreturns, hfinds', hreads⟩ := strstr_finds ha hb (Nat.lt_of_succ_le hk)
    rw [hfinds.unique hfinds']
    exact ⟨reads, hreturns, hreads.haystack, hreads.needle⟩
  · intro x hx
    rcases hfinds with ⟨rfl, -⟩ | ⟨i, rfl, hi⟩
    · cases hx
    · exact ⟨i, (Option.some.inj hx).symm, hi⟩
  · intro hb0
    apply hfinds.unique
    rw [hb0]
    exact Finds.here p List.nil_prefix

/-- A match that starts inside one that failed: `aab` in `aaab`. -/
theorem strstr_first_aab : ∃ r, (∃ n, ∀ k, n ≤ k → ∃ reads,
      strstr k 0 8 (fun x => (ascii "aaab").getD x.toNat 0 ||| (ascii "aab").getD (x - 8).toNat 0) = some (r, reads)) ∧
    r = some 1 := by
  have ha : StringAt (fun x => (ascii "aaab").getD x.toNat 0 ||| (ascii "aab").getD (x - 8).toNat 0) 0 (ascii "aaab") := by
    refine ⟨?_, ?_, ?_⟩ <;> decide +kernel
  have hb : StringAt (fun x => (ascii "aaab").getD x.toNat 0 ||| (ascii "aab").getD (x - 8).toNat 0) 8 (ascii "aab") := by
    refine ⟨?_, ?_, ?_⟩ <;> decide +kernel
  obtain ⟨r, ⟨n, hn⟩, hfirst, hnone, -⟩ := strstr_first ha hb
  refine ⟨r, ⟨n, ?_⟩, ?_⟩
  · intro k hk
    obtain ⟨reads, hreads, -⟩ := hn k hk
    exact ⟨reads, hreads⟩
  · cases hr : r with
    | none =>
      have hno : ¬ ascii "aab" <:+: ascii "aaab" := hnone.1 hr
      exact absurd (by decide +kernel) hno
    | some x =>
      obtain ⟨i, rfl, hi, hbefore⟩ := hfirst x hr
      have hone : ascii "aab" <+: (ascii "aaab").drop 1 := by decide +kernel
      have hle : i ≤ 1 := not_lt.1 fun hlt => hbefore 1 hlt hone
      interval_cases i
      · exact absurd hi (by decide +kernel)
      · rfl

/-! ## `strlen` and `strchr` -/

theorem strlenLoop : ∀ (n : ℕ) {u : List Byte} {i : ℕ}, u.length < n → LineFrom (bytesFrom m p) i u →
    loop (strlenBody p m) n (BitVec.ofNat 64 i) = some (BitVec.ofNat 64 (i + u.length)) := by
  intro n
  induction n with
  | zero => intro u i hn; omega
  | succ n ih =>
    intro u i hn hu
    have hx : m (p + BitVec.ofNat 64 i) = u.headD 0 := hu.head
    by_cases hu0 : u.headD 0 = 0
    · have hbody : strlenBody p m (BitVec.ofNat 64 i) = .inr (BitVec.ofNat 64 i) :=
        if_neg fun h => h (hx.trans hu0)
      rw [loop_done hbody, hu.eq_nil hu0]
      rfl
    · have hlen := length_tail hu0
      have hbody : strlenBody p m (BitVec.ofNat 64 i) = .inl (BitVec.ofNat 64 (i + 1)) := by
        rw [BitVec.ofNat_add]
        exact if_pos fun h => hu0 (hx.symm.trans h)
      rw [loop_next hbody, ih (by omega) (hu.next hu0), show i + 1 + u.tail.length = i + u.length by omega]

/-- **`strlen`** gives the number of characters. -/
theorem strlen_returns (hs : StringAt m p s) : Returns (fun n => strlen n p m) (BitVec.ofNat 64 s.length) := by
  have hloop := strlenLoop (s.length + 1) (Nat.lt_succ_self _) hs.lineFrom
  rw [Nat.zero_add] at hloop
  exact loop_returns hloop

theorem singleton_isStart (d : Byte) (u : List Byte) : [d] <+: u ↔ u.head? = some d := by
  cases u with
  | nil => simp
  | cons c u => simp [List.cons_prefix_cons, eq_comm]

/-- The loop of `strchr` searches in front of the NUL. -/
theorem strchrLoop (c : BitVec 32) : ∀ (n : ℕ) {u : List Byte} {i : ℕ}, u.length < n → LineFrom (bytesFrom m p) i u →
    ∃ r, loop (strchrBody c m) n (p + BitVec.ofNat 64 i) = some r ∧
      Finds (p + BitVec.ofNat 64 i) [c.setWidth 8] u r := by
  intro n
  induction n with
  | zero => intro u i hn; omega
  | succ n ih =>
    intro u i hn hu
    have hx : m (p + BitVec.ofNat 64 i) = u.headD 0 := hu.head
    by_cases hu0 : u.headD 0 = 0
    · have hbody : strchrBody c m (p + BitVec.ofNat 64 i) = .inr none := if_neg fun h => h (hx.trans hu0)
      refine ⟨none, loop_done hbody, Or.inl ⟨rfl, ?_⟩⟩
      intro k h
      rw [hu.eq_nil hu0, List.drop_nil, List.prefix_nil] at h
      cases h
    · have hx0 : m (p + BitVec.ofNat 64 i) ≠ 0 := fun h => hu0 (hx.symm.trans h)
      have hhead : u.head? = some (u.headD 0) := by
        cases u with
        | nil => exact absurd rfl hu0
        | cons d u => rfl
      by_cases hc : u.headD 0 = c.setWidth 8
      · have hbody : strchrBody c m (p + BitVec.ofNat 64 i) = .inr (some (p + BitVec.ofNat 64 i)) :=
          (if_pos hx0).trans (if_pos (hx.trans hc))
        refine ⟨_, loop_done hbody, Finds.here _ ?_⟩
        rw [singleton_isStart, hhead, hc]
      · have hlen := length_tail hu0
        have hbody : strchrBody c m (p + BitVec.ofNat 64 i) = .inl (p + BitVec.ofNat 64 (i + 1)) := by
          rw [← offset_next]
          exact (if_pos hx0).trans (if_neg fun h => hc (hx.symm.trans h))
        obtain ⟨r, hloop, hfinds⟩ := ih (by omega) (hu.next hu0)
        rw [← offset_next] at hfinds
        refine ⟨r, (loop_next hbody).trans hloop, hfinds.skip fun h => hc ?_⟩
        rw [singleton_isStart, hhead] at h
        exact Option.some.inj h

/-- **`strchr`** as a search in the characters without the NUL. -/
theorem strchr_finds (hs : StringAt m p s) (c : BitVec 32) :
    ∃ r, Returns (fun n => strchr n p c m) r ∧ Finds p [c.setWidth 8] s r := by
  obtain ⟨r, hloop, hfinds⟩ := strchrLoop c (s.length + 1) (Nat.lt_succ_self _) hs.lineFrom
  rw [BitVec.add_zero] at hloop hfinds
  exact ⟨r, loop_returns hloop, hfinds⟩

/-! ## The contract of `strchr` -/

/-- The C library's contract, for the string `s` at `p` and the character `c`: the first character equal to
`c` as a `char`, where the NUL counts. So it is `strstr` for a string of one character, and the end of the
string for the NUL. -/
structure StrchrContract (m : Mem) (p : Word) (s : List Byte) (c : BitVec 32) : Prop where
  first : ∃ r, Returns (fun n => strchr n p c m) r ∧ (r = none ↔ c.setWidth 8 ∉ s ++ [0]) ∧
    ∀ x, r = some x → ∃ i, x = p + BitVec.ofNat 64 i ∧ (s ++ [0])[i]? = some (c.setWidth 8) ∧
      ∀ l < i, (s ++ [0])[l]? ≠ some (c.setWidth 8)
  strstr : c.setWidth 8 ≠ 0 → ∀ q, StringAt m q [c.setWidth 8] → ∃ r, Returns (fun n => strchr n p c m) r ∧
    Returns (fun n => (strstr n p q m).map Prod.fst) r
  strlen : c.setWidth 8 = 0 → ∃ len, Returns (fun n => strlen n p m) len ∧
    Returns (fun n => strchr n p c m) (some (p + len))

theorem singleton_at (d : Byte) (u : List Byte) (k : ℕ) : [d] <+: u.drop k ↔ u[k]? = some d := by
  rw [singleton_isStart, List.head?_drop]

/-- Other characters are not at the NUL. -/
theorem getElem?_nul {d : Byte} (hd : d ≠ 0) (s : List Byte) (k : ℕ) : (s ++ [0])[k]? = some d ↔ s[k]? = some d := by
  rcases Nat.lt_or_ge k s.length with hk | hk
  · rw [List.getElem?_append_left hk]
  · rw [List.getElem?_append_right hk, List.getElem?_eq_none hk]
    refine ⟨?_, fun h => by cases h⟩
    intro h
    have hmem := List.mem_of_getElem? h
    exact absurd (List.mem_singleton.1 hmem) hd

/-- The loop ends before it looks at the NUL. -/
theorem not_contract_nul (hs : StringAt m p s) (hc : c.setWidth 8 = 0) : ¬ StrchrContract m p s c := by
  intro h
  obtain ⟨r, hr, hfinds⟩ := strchr_finds hs c
  obtain ⟨len, -, hend⟩ := h.strlen hc
  have hsome := hr.det hend
  rcases hfinds with ⟨hnone, -⟩ | ⟨k, -, hk, -⟩
  · rw [hnone] at hsome
    cases hsome
  · rw [hc, singleton_at] at hk
    exact hs.noNul 0 (List.mem_of_getElem? hk) rfl

/-- **`strchr`** keeps the contract exactly for characters other than the NUL. The `strlen` of the contract is
the number of characters. -/
theorem strchr_contract_iff (hs : StringAt m p s) (c : BitVec 32) :
    Returns (fun n => strlen n p m) (BitVec.ofNat 64 s.length) ∧
      (StrchrContract m p s c ↔ c.setWidth 8 ≠ 0) := by
  refine ⟨strlen_returns hs, ?_⟩
  constructor
  · intro h hc
    exact not_contract_nul hs hc h
  · intro hc
    obtain ⟨r, hr, hfinds⟩ := strchr_finds hs c
    refine ⟨⟨r, hr, ?_, ?_⟩, ?_, fun h => absurd h hc⟩
    · rw [hfinds.none_iff, List.singleton_infix_iff, List.mem_append, List.mem_singleton, not_or]
      exact ⟨fun h => ⟨h, hc⟩, fun h => h.1⟩
    · intro x hx
      rcases hfinds with ⟨hnone, -⟩ | ⟨k, hk, hat, hfirst⟩
      · rw [hnone] at hx
        cases hx
      · refine ⟨k, Option.some.inj (hx.symm.trans hk), ?_, fun l hl hbad => hfirst l hl ?_⟩
        · exact (getElem?_nul hc s k).2 ((singleton_at _ s k).1 hat)
        · exact (singleton_at _ s l).2 ((getElem?_nul hc s l).1 hbad)
    · intro _ q hq
      refine ⟨r, hr, s.length + 1 + 1, ?_⟩
      intro n hn
      obtain ⟨r', reads, hreturns, hfinds', -⟩ := strstr_finds hs hq (Nat.lt_of_succ_le hn)
      dsimp only
      rw [hreturns, hfinds.unique hfinds']
      rfl

/-- The string `a` at address 1. -/
theorem stringAt_a : StringAt (fun x => if x = 1 then 0x61 else 0) 1 [0x61] := by
  refine ⟨?_, ?_, ?_⟩ <;> decide

/-- The character `a`, given as an `int` above 255. -/
theorem strchr_contract_a : StrchrContract (fun x => if x = 1 then 0x61 else 0) 1 [0x61] 0x161 :=
  (strchr_contract_iff stringAt_a 0x161).2.2 (by decide)

/-- `strchr("a", 0)` is NULL, and not the address of the NUL. -/
theorem strchr_nul_fails : strchr 2 1 0 (fun x => if x = 1 then 0x61 else 0) = some none ∧
    ¬ StrchrContract (fun x => if x = 1 then 0x61 else 0) 1 [0x61] 0 :=
  ⟨by decide, not_contract_nul stringAt_a (by decide)⟩

end Zer0S
