import AncoreOS.Library.ByteMemory
import AncoreOS.Library.Loop

/-!
# Writing the cache back

`phys_flush_cache` and `phys_invalidate_cache` execute `clflush` for a range of
addresses, one 64-byte line after the other.  The two bodies are the same loop,
`clflushLoop`; what it leaves behind is the list of operands of `clflush`.

The loop pointer is a multiple of 64 and compares with the end of the range.  In
the last line of the address space no such pointer is past the end, and the
pointer wraps to `0`: `clflushLoop_none`.
-/

namespace AncoreOS.Mm

open ByteMemory

/-- The line of an address. -/
def lineOf (a : Word) : Word := a &&& ~~~63#64

/-- The loop pointer and the operands of `clflush` so far. -/
structure Clflush where
  p : Word
  flushed : List Word
  deriving Repr

def Clflush.round (s : Clflush) : Clflush :=
  { p := s.p + 64
    flushed := s.flushed ++ [s.p] }

/-- At most `n` rounds; `none` is a loop that has not ended. -/
def clflushLoop (n : Nat) (addr size : Word) : Option (List Word) :=
  let last := addr + size
  (whileFuel (fun s : Clflush => decide (s.p < last)) Clflush.round n ⟨lineOf addr, []⟩).map
    Clflush.flushed

def physFlushCache (n : Nat) (addr size : Word) : Option (List Word) := clflushLoop n addr size

def physInvalidateCache (n : Nat) (addr size : Word) : Option (List Word) := clflushLoop n addr size

/-- The function ends and has executed `clflush` on every line with an address from
`addr` up to `addr + size`. -/
def FlushesRange (flush : Nat → Word → Word → Option (List Word)) (addr size : Word) : Prop :=
  ∃ n flushed, flush n addr size = some flushed ∧
    ∀ x : Word, addr.toNat ≤ x.toNat → x.toNat < addr.toNat + size.toNat →
      ∃ p ∈ flushed, lineOf p = lineOf x

theorem lineOf_toNat (a : Word) : (lineOf a).toNat = a.toNat / 64 * 64 := and_not_low_toNat a 6

theorem lineOf_congr {a b : Word} (h : a.toNat / 64 = b.toNat / 64) : lineOf a = lineOf b := by
  apply BitVec.eq_of_toNat_eq
  rw [lineOf_toNat, lineOf_toNat, h]

/-! ### The loop -/

theorem add_line_toNat (p : Word) (h : p.toNat + 64 < 2 ^ 64) : (p + 64).toNat = p.toNat + 64 := by
  rw [BitVec.toNat_add, show (64 : Word).toNat = 64 from rfl]
  exact Nat.mod_eq_of_lt h

/-- The pointer stays on lines, and has flushed every line from `addr` up to itself. -/
structure Clflush.Covered (addr : Word) (s : Clflush) : Prop where
  line : s.p.toNat % 64 = 0
  start : addr.toNat / 64 * 64 ≤ s.p.toNat
  covered : ∀ x : Word, addr.toNat ≤ x.toNat → x.toNat < s.p.toNat →
    ∃ p ∈ s.flushed, lineOf p = lineOf x

theorem Clflush.covered_start (addr : Word) : Clflush.Covered addr ⟨lineOf addr, []⟩ where
  line := by
    rw [lineOf_toNat]
    omega
  start := (lineOf_toNat addr).ge
  covered := by
    intro x hx hlt
    rw [lineOf_toNat] at hlt
    omega

theorem Clflush.Covered.round {addr : Word} {s : Clflush} (h : Clflush.Covered addr s)
    (hlt : s.p.toNat + 64 < 2 ^ 64) : Clflush.Covered addr s.round := by
  have hnext := add_line_toNat s.p hlt
  have hline := h.line
  have hstart := h.start
  refine ⟨?_, ?_, fun x hx hxp => ?_⟩
  · show (s.p + 64).toNat % 64 = 0
    omega
  · show _ ≤ (s.p + 64).toNat
    omega
  · have hxp' : x.toNat < s.p.toNat + 64 := by
      rw [← hnext]
      exact hxp
    by_cases hold : x.toNat < s.p.toNat
    · obtain ⟨p, hp, heq⟩ := h.covered x hx hold
      exact ⟨p, List.mem_append_left _ hp, heq⟩
    · exact ⟨s.p, List.mem_append_right _ List.mem_cons_self, lineOf_congr (by omega)⟩

/-- While no line past the end of the range wraps, the loop ends and covers the range. -/
theorem clflushLoop_covers {addr size : Word} (h : addr.toNat + size.toNat ≤ 2 ^ 64 - 64) :
    FlushesRange clflushLoop addr size := by
  have hlast : (addr + size).toNat = addr.toNat + size.toNat := by
    rw [BitVec.toNat_add]
    omega
  obtain ⟨s, hrun, hs, hstop⟩ := whileFuel_spec
    (c := fun s : Clflush => decide (s.p < addr + size)) (f := Clflush.round)
    (Clflush.Covered addr) (fun s => (addr + size).toNat - s.p.toNat)
    (by
      intro s hs hlt
      rw [decide_eq_true_eq, BitVec.lt_def] at hlt
      have hline := hs.line
      have hroom : s.p.toNat + 64 < 2 ^ 64 := by omega
      have hnext := add_line_toNat s.p hroom
      refine ⟨hs.round hroom, ?_⟩
      show (addr + size).toNat - (s.p + 64).toNat < _
      omega)
    ((addr + size).toNat - (lineOf addr).toNat) ⟨lineOf addr, []⟩ (Clflush.covered_start addr) le_rfl
  rw [decide_eq_false_iff_not, BitVec.lt_def, not_lt] at hstop
  refine ⟨(addr + size).toNat - (lineOf addr).toNat, s.flushed, ?_,
    fun x hx hlt => hs.covered x hx (by omega)⟩
  rw [clflushLoop, hrun]
  rfl

/-- A pointer on a line is never past an end in the last line. -/
theorem clflushLoop_none {addr size : Word} (hlt : addr.toNat + size.toNat < 2 ^ 64)
    (h : 2 ^ 64 - 64 < addr.toNat + size.toNat) (n : Nat) : clflushLoop n addr size = none := by
  have hlast : (addr + size).toNat = addr.toNat + size.toNat := by
    rw [BitVec.toNat_add]
    omega
  have hloop := whileFuel_none (c := fun s : Clflush => decide (s.p < addr + size))
    (f := Clflush.round) (fun s => s.p.toNat % 64 = 0)
    (by
      intro s hline
      have hp := s.p.isLt
      refine ⟨?_, ?_⟩
      · rw [decide_eq_true_eq, BitVec.lt_def]
        omega
      · show (s.p + 64).toNat % 64 = 0
        rw [BitVec.toNat_add, show (64 : Word).toNat = 64 from rfl]
        omega)
    n ⟨lineOf addr, []⟩ (Clflush.covered_start addr).line
  rw [clflushLoop, hloop]
  rfl

theorem clflushLoop_iff {addr size : Word} (hlt : addr.toNat + size.toNat < 2 ^ 64) :
    FlushesRange clflushLoop addr size ↔ addr.toNat + size.toNat ≤ 2 ^ 64 - 64 := by
  refine ⟨?_, clflushLoop_covers⟩
  rintro ⟨n, flushed, hrun, -⟩
  by_contra hover
  rw [clflushLoop_none hlt (not_le.mp hover)] at hrun
  cases hrun

/-- **The caches are written back exactly if the range ends before the last line of the
address space.** -/
theorem physCache_iff (addr size : Word) (hlt : addr.toNat + size.toNat < 2 ^ 64) :
    FlushesRange physFlushCache addr size ∧ FlushesRange physInvalidateCache addr size ↔
      addr.toNat + size.toNat ≤ 2 ^ 64 - 64 := by
  rw [← clflushLoop_iff hlt]
  exact and_self_iff

theorem physCache_iff_page :
    FlushesRange physFlushCache 0x1000 64 ∧ FlushesRange physInvalidateCache 0x1000 64 ↔
      (0x1000 : Word).toNat + (64 : Word).toNat ≤ 2 ^ 64 - 64 :=
  physCache_iff 0x1000 64 (by decide)

/-- One byte in the last line: the range is below `2 ^ 64`, and the loop goes on for ever. -/
theorem physCache_last_line :
    (0xFFFFFFFFFFFFFFC0 : Word).toNat + (1 : Word).toNat < 2 ^ 64 ∧
      ¬ FlushesRange physFlushCache 0xFFFFFFFFFFFFFFC0 1 ∧
      ¬ FlushesRange physInvalidateCache 0xFFFFFFFFFFFFFFC0 1 := by
  have hnone : ¬ FlushesRange clflushLoop 0xFFFFFFFFFFFFFFC0 1 :=
    fun h => absurd ((clflushLoop_iff (by decide)).mp h) (by decide)
  exact ⟨by decide, hnone, hnone⟩

end AncoreOS.Mm
