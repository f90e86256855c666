import AncoreOS.Drivers.Pci
import Mathlib.Tactic

/-!
# The size of a BAR

`pci_get_bar_size` of `drivers/pci/pci.c` writes all ones to a base address register, reads
back which bits stayed, and puts the old word back.  Here the configuration space can be
written: `PciPorts` has the word in `CONFIG_ADDRESS` and the registers behind `CONFIG_DATA`,
and `PciDecode` says what a register makes of a word that is written to it.

A memory BAR for `2 ^ k` bytes keeps the bits from `k` on and shows its type in the low four
(`barWord`), so the word that is put back is the word that was there.
-/

namespace AncoreOS.Drivers

/-- `PCI_CONFIG_ADDRESS`. -/
def pciConfigAddress : BitVec 16 := 0xCF8

/-- `PCI_CONFIG_DATA`. -/
def pciConfigData : BitVec 16 := 0xCFC

structure PciPorts where
  configAddress : BitVec 32
  cfg : Cfg

/-- The word in the register at an address when `value` is written over `old`. -/
abbrev PciDecode := (addr old value : BitVec 32) → BitVec 32

namespace PciPorts

variable (D : PciDecode)

def outl (port : BitVec 16) (value : BitVec 32) (p : PciPorts) : PciPorts :=
  if port = pciConfigAddress then { p with configAddress := value }
  else if port = pciConfigData then
    { p with
      cfg := Function.update p.cfg p.configAddress
        (D p.configAddress (p.cfg p.configAddress) value) }
  else p

def inl (port : BitVec 16) (p : PciPorts) : BitVec 32 :=
  if port = pciConfigAddress then p.configAddress
  else if port = pciConfigData then p.cfg p.configAddress
  else 0xFFFFFFFF

def pciRead (bus device func offset : BitVec 8) (p : PciPorts) : BitVec 32 × PciPorts :=
  let p := p.outl D pciConfigAddress (pciAddress bus device func offset)
  (p.inl pciConfigData, p)

def pciWrite (bus device func offset : BitVec 8) (data : BitVec 32) (p : PciPorts) : PciPorts :=
  let p := p.outl D pciConfigAddress (pciAddress bus device func offset)
  p.outl D pciConfigData data

def pciGetBarSize (bus device func offset : BitVec 8) (p : PciPorts) : BitVec 32 × PciPorts :=
  let (orig, p) := p.pciRead D bus device func offset
  let p := p.pciWrite D bus device func offset 0xFFFFFFFF
  let (sizeMask, p) := p.pciRead D bus device func offset
  let p := p.pciWrite D bus device func offset orig
  let sizeMask := sizeMask &&& ~~~0xF#32
  (~~~sizeMask + 1, p)

/-! ### Reads and writes -/

section Access

variable {D} {bus device func offset : BitVec 8} {p : PciPorts}

/-- A read shows what the scan of the buses reads. -/
theorem pciRead_eq : p.pciRead D bus device func offset =
    (Drivers.pciRead p.cfg bus device func offset,
      { p with configAddress := pciAddress bus device func offset }) := rfl

theorem pciWrite_eq {data : BitVec 32} : p.pciWrite D bus device func offset data =
    { configAddress := pciAddress bus device func offset
      cfg := Function.update p.cfg (pciAddress bus device func offset)
        (D (pciAddress bus device func offset)
          (p.cfg (pciAddress bus device func offset)) data) } := rfl

/-- All that `pci_get_bar_size` does is two writes to one register. -/
theorem pciGetBarSize_eq {a : BitVec 32} (ha : pciAddress bus device func offset = a) :
    p.pciGetBarSize D bus device func offset =
      (~~~(D a (p.cfg a) 0xFFFFFFFF &&& ~~~0xF#32) + 1,
        { configAddress := a
          cfg := Function.update p.cfg a (D a (D a (p.cfg a) 0xFFFFFFFF) (p.cfg a)) }) := by
  subst ha
  simp only [pciGetBarSize, pciRead_eq, pciWrite_eq, Drivers.pciRead, Function.update_self,
    Function.update_idem]

end Access

end PciPorts

/-! ### Memory BARs -/

/-- The word that a memory BAR for `2 ^ k` bytes holds when `v` is written to it. -/
def barWord (k : Nat) (kind : BitVec 4) (v : BitVec 32) : BitVec 32 :=
  v &&& (BitVec.allOnes 32 <<< k) ||| kind.setWidth 32

section Bar

variable {k : Nat} {kind : BitVec 4}

theorem getLsbD_ones_shift (k : Nat) {i : Nat} (hi : i < 32) :
    (BitVec.allOnes 32 <<< k).getLsbD i = decide (k ≤ i) := by
  rw [BitVec.getLsbD_shiftLeft, BitVec.getLsbD_allOnes]
  by_cases hk : k ≤ i
  · rw [decide_eq_true hi, decide_eq_false (show ¬i < k by omega), decide_eq_true hk,
      decide_eq_true (show i - k < 32 by omega)]
    rfl
  · rw [decide_eq_false hk, decide_eq_true (show i < k by omega), Bool.not_true, Bool.and_false,
      Bool.false_and]

theorem getLsbD_barWord (v : BitVec 32) {i : Nat} (hi : i < 32) :
    (barWord k kind v).getLsbD i = (v.getLsbD i && decide (k ≤ i) || kind.getLsbD i) := by
  rw [barWord, BitVec.getLsbD_or, BitVec.getLsbD_and, getLsbD_ones_shift k hi,
    BitVec.getLsbD_setWidth, decide_eq_true hi, Bool.true_and]

/-- What is written back is what was there. -/
theorem barWord_barWord (hk : 4 ≤ k) (v : BitVec 32) :
    barWord k kind (barWord k kind v) = barWord k kind v := by
  refine BitVec.eq_of_getLsbD_eq fun i hi => ?_
  rw [getLsbD_barWord _ hi, getLsbD_barWord _ hi]
  by_cases hki : k ≤ i
  · have hkind : kind.getLsbD i = false := BitVec.getLsbD_of_ge kind i (by omega)
    simp [hki, hkind]
  · simp [hki]

/-- The type bits are masked out, and the bits that stayed are the ones from `k` on. -/
theorem barWord_ones (hk : 4 ≤ k) :
    barWord k kind 0xFFFFFFFF &&& ~~~0xF#32 = BitVec.allOnes 32 <<< k := by
  refine BitVec.eq_of_getLsbD_eq fun i hi => ?_
  have hmask : (0xF#32).getLsbD i = decide (i < 4) := by
    rw [show (0xF#32) = BitVec.ofNat 32 (2 ^ 4 - 1) from rfl, BitVec.getLsbD_ofNat,
      Nat.testBit_two_pow_sub_one]
    simp [hi]
  have hall : (0xFFFFFFFF : BitVec 32).getLsbD i = true := by
    rw [show (0xFFFFFFFF : BitVec 32) = BitVec.allOnes 32 from rfl, BitVec.getLsbD_allOnes]
    exact decide_eq_true hi
  rw [BitVec.getLsbD_and, getLsbD_barWord _ hi, getLsbD_ones_shift k hi, hall, BitVec.getLsbD_not,
    hmask]
  by_cases hki : k ≤ i
  · simp [hki, hi, show ¬i < 4 by omega]
  · by_cases h4 : i < 4
    · simp [hki, h4]
    · simp [hki, h4, BitVec.getLsbD_of_ge kind i (by omega)]

/-- The two's complement of the mask is the size. -/
theorem size_of_mask (k : Nat) : ~~~(BitVec.allOnes 32 <<< k) + 1 = BitVec.ofNat 32 (2 ^ k) := by
  have hneg : BitVec.allOnes 32 <<< k = -BitVec.twoPow 32 k := by
    rw [BitVec.shiftLeft_eq_mul_twoPow, ← BitVec.neg_one_eq_allOnes, BitVec.neg_mul, BitVec.one_mul]
  calc ~~~(BitVec.allOnes 32 <<< k) + 1
      = -(BitVec.allOnes 32 <<< k) := (BitVec.neg_eq_not_add _).symm
    _ = BitVec.twoPow 32 k := by rw [hneg, BitVec.neg_neg]
    _ = BitVec.ofNat 32 (2 ^ k) := by
      apply BitVec.eq_of_toNat_eq
      rw [BitVec.toNat_twoPow, BitVec.toNat_ofNat]

/-- **The size of a memory BAR is found, and every register is as it was.** -/
theorem bar_size_restored (D : PciDecode) (bus device func offset : BitVec 8) (p : PciPorts)
    (hk : 4 ≤ k) (hk' : k ≤ 31)
    (hdecode : ∀ old v, D (pciAddress bus device func offset) old v = barWord k kind v)
    (horig : ∃ v, p.cfg (pciAddress bus device func offset) = barWord k kind v) :
    (p.pciGetBarSize D bus device func offset).1.toNat = 2 ^ k ∧
      (p.pciGetBarSize D bus device func offset).2.cfg = p.cfg := by
  obtain ⟨v, hv⟩ := horig
  rw [PciPorts.pciGetBarSize_eq rfl]
  constructor
  · rw [hdecode, barWord_ones hk, size_of_mask, BitVec.toNat_ofNat]
    exact Nat.mod_eq_of_lt (Nat.pow_lt_pow_right (by decide) (by omega))
  · have hback : D (pciAddress bus device func offset)
        (D (pciAddress bus device func offset) (p.cfg (pciAddress bus device func offset)) 0xFFFFFFFF)
        (p.cfg (pciAddress bus device func offset)) =
        p.cfg (pciAddress bus device func offset) := by
      rw [hdecode, hv, barWord_barWord hk]
    rw [hback, Function.update_eq_self]

end Bar

/-- A 64-bit prefetchable BAR of 4 KiB at `0xFEBF1000`, in a space that is zero elsewhere and
whose other registers cannot be written. -/
def exampleBarPorts : PciPorts where
  configAddress := 0
  cfg addr := if addr = pciAddress 0 4 0 0x10 then 0xFEBF100C else 0

def exampleBarDecode : PciDecode := fun addr old v =>
  if addr = pciAddress 0 4 0 0x10 then barWord 12 0xC v else old

theorem bar_size_restored_exampleBar :
    (exampleBarPorts.pciGetBarSize exampleBarDecode 0 4 0 0x10).1.toNat = 2 ^ 12 ∧
      (exampleBarPorts.pciGetBarSize exampleBarDecode 0 4 0 0x10).2.cfg = exampleBarPorts.cfg :=
  @bar_size_restored 12 0xC exampleBarDecode 0 4 0 0x10 exampleBarPorts (by decide)
    (by decide) (fun _ _ => if_pos rfl) ⟨0xFEBF1000, by decide⟩

end AncoreOS.Drivers
