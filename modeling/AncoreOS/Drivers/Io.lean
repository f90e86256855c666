import AncoreOS.Library.ByteMemory
import Mathlib.Logic.Function.Basic

/-!
# Input and output

The drivers reach their devices through the ports of `io.h` and through registers
in memory.  A `Bus` is the other side of the ports, any state machine that answers
the four accesses, and an `Mmio` the other side of the registers; it may also read
and change memory whenever it is accessed.  All drivers are written over an
arbitrary device, so a statement about them is one about every device.

`Io` is a driver's view of the machine: the device, memory, and the two status
variables of `ata.c`.  `log` records what happened, latest first: every access, for
every word that went from a data port into a buffer the addresses of its two bytes,
and what a device says it has moved by itself.  No driver reads it.
-/

namespace AncoreOS.Drivers

open ByteMemory

/-- A device behind the ports. -/
structure Bus (σ : Type*) where
  inb : σ → BitVec 16 → BitVec 8 × σ
  outb : σ → BitVec 16 → BitVec 8 → σ
  inw : σ → BitVec 16 → BitVec 16 × σ
  outw : σ → BitVec 16 → BitVec 16 → σ

/-- The word `word` of a sector has gone to the addresses `lo` and `hi`. -/
structure SectorMove where
  sector : Nat
  word : Nat
  lo : Word
  hi : Word
  deriving DecidableEq, Repr

/-- What a device does on an access: its new state, the new memory, and the words it
has moved there. -/
structure Reply (σ : Type*) where
  dev : σ
  mem : Mem
  moves : List SectorMove

/-- A device behind registers in memory. -/
structure Mmio (σ : Type*) where
  readl : σ → Mem → Word → BitVec 32 × Reply σ
  writel : σ → Mem → Word → BitVec 32 → Reply σ

inductive IoEvent
  | inb (port : BitVec 16) (v : BitVec 8)
  | outb (port : BitVec 16) (v : BitVec 8)
  | inw (port v : BitVec 16)
  | outw (port v : BitVec 16)
  | fill (lo hi : Word)
  | readl (a : Word) (v : BitVec 32)
  | writel (a : Word) (v : BitVec 32)
  | dma (m : SectorMove)
  deriving DecidableEq, Repr

structure Io (σ : Type*) where
  dev : σ
  mem : Mem
  ataStatus : BitVec 8
  ataError : BitVec 8
  log : List IoEvent

namespace Io

variable {σ : Type*}

def inb (B : Bus σ) (port : BitVec 16) (io : Io σ) : BitVec 8 × Io σ :=
  let r := B.inb io.dev port
  (r.1, { io with dev := r.2, log := .inb port r.1 :: io.log })

def outb (B : Bus σ) (port : BitVec 16) (v : BitVec 8) (io : Io σ) : Io σ :=
  { io with dev := B.outb io.dev port v, log := .outb port v :: io.log }

def inw (B : Bus σ) (port : BitVec 16) (io : Io σ) : BitVec 16 × Io σ :=
  let r := B.inw io.dev port
  (r.1, { io with dev := r.2, log := .inw port r.1 :: io.log })

def outw (B : Bus σ) (port v : BitVec 16) (io : Io σ) : Io σ :=
  { io with dev := B.outw io.dev port v, log := .outw port v :: io.log }

/-- Store the low byte of a word that was read at `lo` and the high byte at `hi`. -/
def fill (lo hi : Word) (word : BitVec 16) (io : Io σ) : Io σ :=
  { io with
    mem := Function.update (Function.update io.mem lo (word.setWidth 8)) hi
      ((word >>> 8).setWidth 8)
    log := .fill lo hi :: io.log }

/-! ### Registers in memory -/

def reply (r : Reply σ) (e : IoEvent) (io : Io σ) : Io σ :=
  { io with
    dev := r.dev
    mem := r.mem
    log := r.moves.reverse.map .dma ++ e :: io.log }

def readl (M : Mmio σ) (a : Word) (io : Io σ) : BitVec 32 × Io σ :=
  let r := M.readl io.dev io.mem a
  (r.1, io.reply r.2 (.readl a r.1))

def writel (M : Mmio σ) (a : Word) (v : BitVec 32) (io : Io σ) : Io σ :=
  io.reply (M.writel io.dev io.mem a v) (.writel a v)

/-- `*a &= v`. -/
def andl (M : Mmio σ) (a : Word) (v : BitVec 32) (io : Io σ) : Io σ :=
  let (x, io) := io.readl M a
  io.writel M a (x &&& v)

/-- `*a |= v`. -/
def orl (M : Mmio σ) (a : Word) (v : BitVec 32) (io : Io σ) : Io σ :=
  let (x, io) := io.readl M a
  io.writel M a (x ||| v)

/-! ### Memory of the driver -/

/-- Store the low `n` bytes of `v` at `a`. -/
def poke (a : Word) (n v : Nat) (io : Io σ) : Io σ := { io with mem := store io.mem a n v }

def memset (a : Word) (b : BitVec 8) (n : Nat) (io : Io σ) : Io σ :=
  { io with mem := ByteMemory.fill io.mem a n b }

end Io

/-- `int r = call(); if (r != 0) return error; rest`. -/
def checked {α : Type*} (call : Int × α) (error : Int → Int) (rest : α → Int × α) : Int × α :=
  if call.1 ≠ 0 then (error call.1, call.2) else rest call.2

section Checked

variable {α : Type*} {call : Int × α} {error : Int → Int} {rest : α → Int × α} {x y : α}

theorem checked_of_zero (h : call = (0, x)) : checked call error rest = rest x := by
  rw [h]
  exact if_neg (not_not.mpr rfl)

theorem checked_of_ne {r : Int} (h : call = (r, x)) (hr : r ≠ 0) :
    checked call error rest = (error r, x) := by
  rw [h]
  exact if_pos hr

/-- When the whole returns `0`, the call did, and the rest ran from its result. -/
theorem of_checked_eq_zero (herror : ∀ r, r ≠ 0 → error r ≠ 0)
    (h : checked call error rest = (0, y)) : ∃ x, call = (0, x) ∧ rest x = (0, y) := by
  unfold checked at h
  by_cases hr : call.1 = 0
  · rw [if_neg (not_not.mpr hr)] at h
    exact ⟨call.2, Prod.ext hr rfl, h⟩
  · rw [if_pos hr] at h
    exact absurd (Prod.mk.inj h).1 (herror _ hr)

/-- Where an error is passed on as it is, calls in a row can be bracketed either way. -/
theorem checked_assoc (rest rest' : α → Int × α) :
    checked (checked call (fun r => r) rest) (fun r => r) rest' =
      checked call (fun r => r) fun a => checked (rest a) (fun r => r) rest' := by
  by_cases h : call.1 = 0
  · unfold checked
    rw [if_neg (not_not.mpr h), if_neg (not_not.mpr h)]
  · have hcall : call = (call.1, call.2) := rfl
    rw [checked_of_ne hcall h, checked_of_ne hcall h, checked_of_ne rfl h]

/-- What the call and the rest both establish of the state. -/
theorem checked_snd {P : α → Prop} (hcall : P call.2) (hrest : P (rest call.2).2) :
    P (checked call error rest).2 := by
  unfold checked
  split
  · exact hcall
  · exact hrest

end Checked

end AncoreOS.Drivers
