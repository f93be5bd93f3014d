import Zer0S.Lib.Copy
import Zer0S.Lib.Loop

/-!
# Memory and string functions (`string.c`)

The functions work on the byte memory; a pointer is an address, and a pointer that is returned is `none`
for NULL. Loops that follow a string take a number of rounds (`none`: not enough rounds). An `int` that is
the difference of two bytes is an integer.

`StrReads` is ghost: the addresses that `strstr` read through its pointers into the two strings, latest
first.
-/

namespace Zer0S

open Lib

/-! ## Copying -/

/-- `memcpy` -/
def memcpy (dest src n : Word) (m : Mem) : Word × Mem :=
  -- while (n--) *d++ = *s++
  (dest, copyUp n.toNat dest src m)

/-- `memmove` -/
def memmove (dest src n : Word) (m : Mem) : Word × Mem :=
  if dest < src then (dest, copyUp n.toNat dest src m)
  else
    -- while (n--) *--d = *--s
    (dest, copyDown n.toNat (dest + n) (src + n) m)

/-- `memset`; the byte is `c` cast to `unsigned char`. -/
def memset (s : Word) (c : BitVec 32) (n : Word) (m : Mem) : Word × Mem :=
  -- while (n--) *p++ = (unsigned char)c
  (s, forLoop (fun i m => m.set (s + BitVec.ofNat 64 i) (c.setWidth 8)) 0 n.toNat m)

/-- One round of the loop of `strcpy`: `d`, `src` and the memory. -/
def strcpyBody (x : Word × Word × Mem) : (Word × Word × Mem) ⊕ Mem :=
  let c := x.2.2 x.2.1
  let m := x.2.2.set x.1 c
  -- the value of the assignment is the byte
  if c ≠ 0 then .inl (x.1 + 1, x.2.1 + 1, m) else .inr m

/-- `strcpy` -/
def strcpy (rounds : ℕ) (dest src : Word) (m : Mem) : Option (Word × Mem) :=
  (loop strcpyBody rounds (dest, src, m)).map fun m => (dest, m)

/-- One round of the first loop of `strncpy`, on `i` and the memory. -/
def strncpyBody (dest src n : Word) (x : Word × Mem) : (Word × Mem) ⊕ (Word × Mem) :=
  if x.1 < n ∧ x.2 (src + x.1) ≠ 0 then .inl (x.1 + 1, x.2.set (dest + x.1) (x.2 (src + x.1))) else .inr x

/-- `strncpy` -/
def strncpy (rounds : ℕ) (dest src n : Word) (m : Mem) : Option (Word × Mem) :=
  (loop (strncpyBody dest src n) rounds (0, m)).map fun (i, m) =>
    -- for (; i < n; i++) d[i] = '\0'
    (dest, forLoop (fun i m => m.set (dest + BitVec.ofNat 64 i) 0) i.toNat (n.toNat - i.toNat) m)

/-! ## Comparing -/

/-- One round of the loop of `memcmp`. -/
def memcmpBody (s1 s2 n : Word) (m : Mem) (i : Word) : Word ⊕ ℤ :=
  if i < n then
    if m (s1 + i) ≠ m (s2 + i) then .inr ((m (s1 + i)).toNat - (m (s2 + i)).toNat) else .inl (i + 1)
  else .inr 0

/-- `memcmp` -/
def memcmp (rounds : ℕ) (s1 s2 n : Word) (m : Mem) : Option ℤ := loop (memcmpBody s1 s2 n m) rounds 0

/-- One round of the loop of `strcmp`, on its two pointers. -/
def strcmpBody (m : Mem) (s : Word × Word) : Word × Word ⊕ ℤ :=
  if m s.1 ≠ 0 ∧ m s.1 = m s.2 then .inl (s.1 + 1, s.2 + 1) else .inr ((m s.1).toNat - (m s.2).toNat)

/-- `strcmp` -/
def strcmp (rounds : ℕ) (s1 s2 : Word) (m : Mem) : Option ℤ := loop (strcmpBody m) rounds (s1, s2)

/-- One round of the loop of `strncmp`. -/
def strncmpBody (s1 s2 n : Word) (m : Mem) (i : Word) : Word ⊕ ℤ :=
  if i < n then
    if m (s1 + i) ≠ m (s2 + i) ∨ m (s1 + i) = 0 then .inr ((m (s1 + i)).toNat - (m (s2 + i)).toNat)
    else .inl (i + 1)
  else .inr 0

/-- `strncmp` -/
def strncmp (rounds : ℕ) (s1 s2 n : Word) (m : Mem) : Option ℤ := loop (strncmpBody s1 s2 n m) rounds 0

/-! ## Searching -/

/-- One round of the loop of `strlen`. -/
def strlenBody (s : Word) (m : Mem) (len : Word) : Word ⊕ Word :=
  if m (s + len) ≠ 0 then .inl (len + 1) else .inr len

/-- `strlen` -/
def strlen (rounds : ℕ) (s : Word) (m : Mem) : Option Word := loop (strlenBody s m) rounds 0

/-- One round of the loop of `strchr`; `c` is an `int` that is cast to `char`. -/
def strchrBody (c : BitVec 32) (m : Mem) (s : Word) : Word ⊕ Option Word :=
  if m s ≠ 0 then
    if m s = c.setWidth 8 then .inr (some s) else .inl (s + 1)
  else .inr none

/-- `strchr` -/
def strchr (rounds : ℕ) (s : Word) (c : BitVec 32) (m : Mem) : Option (Option Word) :=
  loop (strchrBody c m) rounds s

/-- The addresses that were read. -/
structure StrReads where
  haystack : List Word
  needle : List Word

/-- The pointers of the inner loop of `strstr`. -/
structure StrMatch where
  h : Word
  n : Word
  reads : StrReads

/-- `*h` is read. -/
def StrMatch.readH (s : StrMatch) : StrMatch := { s with reads := { s.reads with haystack := s.h :: s.reads.haystack } }

/-- `*n` is read. -/
def StrMatch.readN (s : StrMatch) : StrMatch := { s with reads := { s.reads with needle := s.n :: s.reads.needle } }

/-- One round of the inner loop of `strstr`. -/
def matchBody (m : Mem) (s : StrMatch) : StrMatch ⊕ StrMatch :=
  let s := s.readH
  if m s.h = 0 then .inr s else
  let s := s.readN
  if m s.n = 0 then .inr s else
  let s := s.readH.readN
  if m s.h = m s.n then .inl { s with h := s.h + 1, n := s.n + 1 } else .inr s

/-- The variable `haystack` in the outer loop of `strstr`. -/
structure StrScan where
  haystack : Word
  reads : StrReads

/-- One round of the outer loop of `strstr`; `none` if the rounds do not do for the inner loop. -/
def strstrBody (rounds : ℕ) (needle : Word) (m : Mem) (s : StrScan) :
    StrScan ⊕ Option (Option Word × StrReads) :=
  -- the two pointers at the start of both strings
  let start : StrMatch := ⟨s.haystack, needle, s.reads⟩
  let start := start.readH
  if m s.haystack = 0 then .inr (some (none, start.reads)) else
  let start := start.readH.readN
  if m s.haystack = m needle then
    match loop (matchBody m) rounds start with
    | none => .inr none
    | some t =>
      let t := t.readN
      if m t.n = 0 then .inr (some (some s.haystack, t.reads)) else .inl ⟨s.haystack + 1, t.reads⟩
  else .inl ⟨s.haystack + 1, start.reads⟩

/-- `strstr`, with the addresses that it read. -/
def strstr (rounds : ℕ) (haystack needle : Word) (m : Mem) : Option (Option Word × StrReads) :=
  if m needle = 0 then some (some haystack, ⟨[], [needle]⟩)
  else (loop (strstrBody rounds needle m) rounds ⟨haystack, ⟨[], [needle]⟩⟩).join

end Zer0S
