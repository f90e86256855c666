import AncoreOS.Drivers.Io

/-!
# Masking interrupt lines

Two 8259 controllers share sixteen interrupt lines, eight each, and `PIC_Mask` and
`PIC_Unmask` of `pic.c` are to set and clear one bit of their mask registers.  Both
compute the data port of the controller the line belongs to and then access the
port of the first one: the second mask register never changes, and a line from `8`
on is the line eight below it (`picRun_masked`).

A sequence of calls is read by what the last call naming a line asks for; the line
is to be as that call asks, or as it was.
-/

namespace AncoreOS.Drivers

variable {σ : Type*}

def pic1DataPort : BitVec 8 := 0x21
def pic2DataPort : BitVec 8 := 0xA1

/-- A shift by a negative number has no meaning, so `irq` is a natural number.  `port` is
computed and not used. -/
def picMask (B : Bus σ) (s : σ) (irq : Nat) : σ :=
  let (irq, _port) := if irq < 8 then (irq, pic1DataPort) else (irq - 8, pic2DataPort)
  let (mask, s) := B.inb s (pic1DataPort.setWidth 16)
  B.outb s (pic1DataPort.setWidth 16) ((mask.setWidth 32 ||| 1#32 <<< irq).setWidth 8)

def picUnmask (B : Bus σ) (s : σ) (irq : Nat) : σ :=
  let (irq, _port) := if irq < 8 then (irq, pic1DataPort) else (irq - 8, pic2DataPort)
  let (mask, s) := B.inb s (pic1DataPort.setWidth 16)
  B.outb s (pic1DataPort.setWidth 16) ((mask.setWidth 32 &&& ~~~(1#32 <<< irq)).setWidth 8)

/-! ### The controllers -/

/-- The mask registers of the two controllers. -/
structure Pic where
  mask1 : BitVec 8
  mask2 : BitVec 8
  deriving DecidableEq, Repr

/-- The mask registers behind the data ports; no other port is of interest here. -/
def picBus : Bus Pic where
  inb s port :=
    if port = pic1DataPort.setWidth 16 then (s.mask1, s)
    else if port = pic2DataPort.setWidth 16 then (s.mask2, s)
    else (0xFF, s)
  outb s port v :=
    if port = pic1DataPort.setWidth 16 then { s with mask1 := v }
    else if port = pic2DataPort.setWidth 16 then { s with mask2 := v }
    else s
  inw s _ := (0xFFFF, s)
  outw s _ _ := s

/-- The line is masked. -/
def Pic.masked (s : Pic) (line : Fin 16) : Bool :=
  if line.val < 8 then s.mask1.getLsbD line else s.mask2.getLsbD (line - 8)

/-- A call of `PIC_Mask` or of `PIC_Unmask`. -/
structure PicCall where
  masks : Bool
  irq : Fin 16
  deriving DecidableEq, Repr

def PicCall.exec (s : Pic) (c : PicCall) : Pic :=
  if c.masks then picMask picBus s c.irq else picUnmask picBus s c.irq

def picRun (s : Pic) (calls : List PicCall) : Pic := calls.foldl PicCall.exec s

/-! ### One call -/

/-- The bit of the mask register the call writes. -/
def PicCall.bit (c : PicCall) : Nat := c.irq % 8

theorem picCall_exec (s : Pic) (c : PicCall) :
    c.exec s =
      { s with
        mask1 :=
          if c.masks then (s.mask1.setWidth 32 ||| 1#32 <<< c.bit).setWidth 8
          else (s.mask1.setWidth 32 &&& ~~~(1#32 <<< c.bit)).setWidth 8 } := by
  have hirq : (if c.irq.val < 8 then (c.irq.val, pic1DataPort) else (c.irq.val - 8, pic2DataPort)).1
      = c.bit := by
    have hlt := c.irq.isLt
    unfold PicCall.bit
    split <;> simp only <;> omega
  unfold PicCall.exec picMask picUnmask
  simp only [hirq]
  cases c.masks <;> rfl

theorem picCall_mask2 (s : Pic) (c : PicCall) : (c.exec s).mask2 = s.mask2 := by
  rw [picCall_exec]

/-- The call decides one bit and leaves the others. -/
theorem picCall_mask1 (s : Pic) (c : PicCall) {i : Nat} (hi : i < 8) :
    (c.exec s).mask1.getLsbD i = if c.bit = i then c.masks else s.mask1.getLsbD i := by
  have hi32 : i < 32 := by omega
  rw [picCall_exec]
  by_cases hbit : c.bit = i
  · rw [if_pos hbit, hbit]
    cases c.masks <;> simp [hi]
  · have hne : ∀ j, i - c.bit = j → i < c.bit ∨ j ≠ 0 := by omega
    rw [if_neg hbit]
    rcases hne _ rfl with hlt | hpos <;> cases c.masks <;>
      simp [*]

/-! ### Runs of calls -/

/-- The last of the calls that `p` selects. -/
def lastCall (p : PicCall → Bool) (calls : List PicCall) : Option PicCall := calls.findRev? p

theorem lastCall_append_singleton (p : PicCall → Bool) (calls : List PicCall) (c : PicCall) :
    lastCall p (calls ++ [c]) = if p c then some c else lastCall p calls := by
  simp only [lastCall, List.findRev?_eq_find?_reverse, List.reverse_append, List.reverse_singleton,
    List.singleton_append, List.find?_cons]
  cases p c <;> rfl

/-- What the calls are to make of a line: what the last call naming it asks for. -/
def wanted (s : Pic) (calls : List PicCall) (line : Fin 16) : Bool :=
  ((lastCall (fun c => c.irq = line) calls).map PicCall.masks).getD (s.masked line)

/-- Every line is as the calls ask. -/
def LinesFollow (s : Pic) (calls : List PicCall) : Prop :=
  ∀ line, (picRun s calls).masked line = wanted s calls line

theorem picRun_append_singleton (s : Pic) (calls : List PicCall) (c : PicCall) :
    picRun s (calls ++ [c]) = c.exec (picRun s calls) := List.foldl_append

theorem picRun_mask2 (s : Pic) (calls : List PicCall) : (picRun s calls).mask2 = s.mask2 := by
  induction calls using List.reverseRecOn with
  | nil => rfl
  | append_singleton calls c ih => rw [picRun_append_singleton, picCall_mask2, ih]

/-- A bit of the first register is as the last call asks that writes it. -/
theorem picRun_mask1 (s : Pic) (calls : List PicCall) {i : Nat} (hi : i < 8) :
    (picRun s calls).mask1.getLsbD i =
      ((lastCall (fun c => c.bit = i) calls).map PicCall.masks).getD (s.mask1.getLsbD i) := by
  induction calls using List.reverseRecOn with
  | nil => rfl
  | append_singleton calls c ih =>
    rw [picRun_append_singleton, picCall_mask1 _ c hi, ih, lastCall_append_singleton]
    by_cases hbit : c.bit = i
    · rw [if_pos hbit, if_pos (decide_eq_true hbit)]
      rfl
    · rw [if_neg hbit, if_neg (by rw [decide_eq_false hbit]; exact Bool.false_ne_true)]

/-- The lines of the first controller are as the last call on their bit asks; those of the
second one stay. -/
theorem picRun_masked (s : Pic) (calls : List PicCall) (line : Fin 16) :
    (picRun s calls).masked line =
      if line.val < 8 then
        ((lastCall (fun c => c.bit = line) calls).map PicCall.masks).getD (s.masked line)
      else s.masked line := by
  unfold Pic.masked
  split
  · next hlt => exact picRun_mask1 s calls hlt
  · rw [picRun_mask2]

/-! ### When the lines follow the calls -/

theorem lastCall_of_imp {p q : PicCall → Bool} {calls : List PicCall} {c : PicCall}
    (hqp : ∀ c, q c = true → p c = true) (hp : lastCall p calls = some c) (hq : q c = true) :
    lastCall q calls = some c := by
  induction calls using List.reverseRecOn with
  | nil => cases hp
  | append_singleton calls d ih =>
    rw [lastCall_append_singleton] at hp ⊢
    by_cases hpd : p d = true
    · rw [if_pos hpd, Option.some_inj] at hp
      subst hp
      rw [if_pos hq]
    · rw [if_neg hpd] at hp
      rw [if_neg fun hqd => hpd (hqp d hqd)]
      exact ih hp

theorem lastCall_none_of_imp {p q : PicCall → Bool} {calls : List PicCall}
    (hqp : ∀ c, q c = true → p c = true) (hp : lastCall p calls = none) :
    lastCall q calls = none := by
  induction calls using List.reverseRecOn with
  | nil => rfl
  | append_singleton calls d ih =>
    rw [lastCall_append_singleton] at hp ⊢
    by_cases hpd : p d = true
    · rw [if_pos hpd] at hp
      cases hp
    · rw [if_neg hpd] at hp
      rw [if_neg fun hqd => hpd (hqp d hqd)]
      exact ih hp

theorem lastCall_spec {p : PicCall → Bool} {calls : List PicCall} {c : PicCall}
    (h : lastCall p calls = some c) : p c = true := by
  rw [lastCall, List.findRev?_eq_find?_reverse] at h
  exact List.find?_some h

/-- The calls that name a line of the second controller ask in the end for what it is, and the
last call on a bit of the first one asks for what its own line is to be. -/
structure Harmless (s : Pic) (calls : List PicCall) : Prop where
  high : ∀ line : Fin 16, 8 ≤ line.val → wanted s calls line = s.masked line
  low : ∀ line : Fin 16, line.val < 8 → ∀ c, lastCall (fun c => c.bit = line) calls = some c →
    8 ≤ c.irq.val → c.masks = wanted s calls line

/-- On a bit of the first controller, only a call for the line eight above can be wrong. -/
theorem picRun_low_iff (s : Pic) (calls : List PicCall) {line : Fin 16} (hline : line.val < 8) :
    (picRun s calls).masked line = wanted s calls line ↔
      ∀ c, lastCall (fun c => c.bit = line) calls = some c → 8 ≤ c.irq.val →
        c.masks = wanted s calls line := by
  have hnames : ∀ c : PicCall, decide (c.irq = line) = true → decide (c.bit = line.val) = true := by
    intro c hc
    rw [decide_eq_true_eq] at hc ⊢
    rw [PicCall.bit, hc]
    omega
  rw [picRun_masked, if_pos hline]
  cases hlast : lastCall (fun c => c.bit = line) calls with
  | none =>
    have hnone := lastCall_none_of_imp hnames hlast
    rw [wanted, hnone]
    refine iff_of_true rfl ?_
    rintro c hc
    cases hc
  | some c =>
    by_cases hhigh : 8 ≤ c.irq.val
    · constructor
      · rintro h d hd -
        cases hd
        exact h
      · exact fun h => h c rfl hhigh
    · have hbit := lastCall_spec hlast
      have hirq : decide (c.irq = line) = true := by
        rw [decide_eq_true_eq, PicCall.bit] at hbit
        rw [decide_eq_true_eq, Fin.ext_iff]
        omega
      have hsome := lastCall_of_imp hnames hlast hirq
      refine iff_of_true ?_ ?_
      · rw [wanted, hsome]
      · rintro d hd hge
        cases hd
        exact absurd hge hhigh

/-- **The lines follow the calls exactly if the calls for the second controller are
harmless.** -/
theorem linesFollow_iff (s : Pic) (calls : List PicCall) :
    LinesFollow s calls ↔ Harmless s calls := by
  have hhigh : ∀ line : Fin 16, 8 ≤ line.val → (picRun s calls).masked line = s.masked line := by
    intro line hline
    rw [picRun_masked, if_neg (not_lt.mpr hline)]
  constructor
  · intro h
    refine ⟨fun line hline => ?_, fun line hline => ?_⟩
    · rw [← h line, hhigh line hline]
    · exact (picRun_low_iff s calls hline).mp (h line)
  · intro h line
    by_cases hline : line.val < 8
    · exact (picRun_low_iff s calls hline).mpr (h.low line hline)
    · rw [hhigh line (not_lt.mp hline), h.high line (not_lt.mp hline)]

/-- Masking line `8` leaves it unmasked and masks line `0`. -/
theorem picRun_mask_eight :
    (picRun ⟨0, 0⟩ [⟨true, 8⟩]).masked 8 = false ∧ (picRun ⟨0, 0⟩ [⟨true, 8⟩]).masked 0 = true ∧
      ¬ LinesFollow ⟨0, 0⟩ [⟨true, 8⟩] := by
  have hrun : (picRun ⟨0, 0⟩ [⟨true, 8⟩]).masked 8 = false := by decide
  refine ⟨hrun, by decide, fun h => ?_⟩
  have hwanted : wanted ⟨0, 0⟩ [⟨true, 8⟩] 8 = true := by decide
  rw [← h 8, hrun] at hwanted
  exact Bool.false_ne_true hwanted

end AncoreOS.Drivers
