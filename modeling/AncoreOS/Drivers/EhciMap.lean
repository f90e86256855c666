import AncoreOS.Drivers.Pci
import AncoreOS.Mm.VmmIdentity

/-!
# The registers of an EHCI controller in memory

`ehci_pci_init` of `drivers/hci/ehci.c` asks BAR 0 for the place and the size of the registers,
with `pci_get_bar_size` of `drivers/pci/pci.c`, and maps them page by page at their physical
address.  `ehciPciInit` is the function up to the call of `ehci_init`.

The base of a BAR is a multiple of its size, which can be as small as 16 bytes, and `map_page`
puts it into the entry as it is, so that below 4096 bytes the base has bits where the entry
has flags.  `ehci_maps_exactly_iff` says for which bars that does no harm.
-/

namespace AncoreOS.Drivers

open ByteMemory AncoreOS.Mm

/-! ### The configuration space -/

/-- A configuration space that can be written, by the value of `CONFIG_ADDRESS`. -/
structure ConfigSpace (σ : Type*) where
  read : σ → BitVec 32 → BitVec 32 × σ
  write : σ → BitVec 32 → BitVec 32 → σ

namespace ConfigSpace

variable {σ : Type*} (C : ConfigSpace σ) (bus device func offset : BitVec 8)

def pciRead (s : σ) : BitVec 32 × σ := C.read s (pciAddress bus device func offset)

def pciWrite (data : BitVec 32) (s : σ) : σ := C.write s (pciAddress bus device func offset) data

def pciGetBarSize (s : σ) : BitVec 32 × σ :=
  let (orig, s) := C.pciRead bus device func offset s
  let s := C.pciWrite bus device func offset 0xFFFFFFFF s
  let (sizeMask, s) := C.pciRead bus device func offset s
  let s := C.pciWrite bus device func offset orig s
  (~~~(sizeMask &&& ~~~0xF) + 1, s)

end ConfigSpace

/-- `PTE_PRESENT | PTE_WRITABLE | PTE_CACHE_DISABLE | PTE_WRITE_THROUGH`. -/
def ehciPageFlags : Word := ptePresent ||| pteWritable ||| 0x10 ||| 0x08

/-- The loop, from the offset `off` on. -/
def ehciMapLoop (b : Limine) (phys : Word) (size off : Nat) (v : Vmm) : Vmm :=
  if off < size then
    ehciMapLoop b phys size (off + 0x1000)
      (v.mapPage b (phys + BitVec.ofNat 64 off) (phys + BitVec.ofNat 64 off) ehciPageFlags)
  else v
termination_by size - off
decreasing_by omega

/-- The address that `ehci_init` is called with, if it is, and what has become of the
configuration space and of the page tables. -/
def ehciPciInit {σ : Type*} (b : Limine) (C : ConfigSpace σ) (bus device func : BitVec 8) (cs : σ)
    (v : Vmm) : Option Word × σ × Vmm :=
  let (bar0, cs) := C.pciRead bus device func 0x10 cs
  if bar0 &&& 0x1 ≠ 0 then (none, cs, v)
  else
    let phys := (bar0 &&& 0xFFFFFFF0).setWidth 64
    let (size, cs) := C.pciGetBarSize bus device func 0x10 cs
    (some phys, cs, ehciMapLoop b phys size.toNat 0 v)

/-! ### A memory BAR -/

/-- A memory BAR of `2 ^ order` bytes at `base`.  `kind` are its bits 1 to 3, the type and
whether it can be prefetched. -/
structure MemoryBar where
  order : Nat
  base : BitVec 32
  kind : BitVec 3
  order_ge : 4 ≤ order
  aligned : base.toNat % 2 ^ order = 0

namespace MemoryBar

variable (bar : MemoryBar)

/-- The bits of the register that can be written. -/
def mask : BitVec 32 := ~~~BitVec.ofNat 32 (2 ^ bar.order - 1)

def low : BitVec 32 := bar.kind.setWidth 32 <<< 1

def value : BitVec 32 := bar.base ||| bar.low

end MemoryBar

/-- The register at `address`, which is `reg` in a state of the configuration space, is that
of the BAR. -/
structure BarAt {σ : Type*} (C : ConfigSpace σ) (address : BitVec 32) (bar : MemoryBar)
    (reg : σ → BitVec 32) : Prop where
  read : ∀ s, (C.read s address).1 = reg s ∧ reg (C.read s address).2 = reg s
  write : ∀ s data, reg (C.write s address data) = (data &&& bar.mask) ||| bar.low

namespace MemoryBar

variable {bar : MemoryBar}

theorem mask_bit {i : Nat} (hi : i < 32) : bar.mask.getLsbD i = decide (bar.order ≤ i) := by
  rw [mask, BitVec.getLsbD_not, BitVec.getLsbD_ofNat, Nat.testBit_two_pow_sub_one]
  by_cases h : i < bar.order
  · simp [hi, h]
  · simp [hi, h, not_lt.mp h]

theorem base_bit {i : Nat} (hi : i < bar.order) : bar.base.getLsbD i = false := by
  have h := Nat.testBit_mod_two_pow bar.base.toNat bar.order i
  rw [bar.aligned, Nat.zero_testBit, decide_eq_true hi, Bool.true_and] at h
  exact h.symm

theorem low_bit {i : Nat} (hi : 4 ≤ i) : bar.low.getLsbD i = false := by
  rw [low, BitVec.getLsbD_shiftLeft, BitVec.getLsbD_setWidth,
    BitVec.getLsbD_of_ge bar.kind (i - 1) (by omega)]
  simp

theorem base_and_mask : bar.base &&& bar.mask = bar.base := by
  refine BitVec.eq_of_getLsbD_eq fun i hi => ?_
  rw [BitVec.getLsbD_and, mask_bit hi]
  by_cases h : bar.order ≤ i
  · rw [decide_eq_true h, Bool.and_true]
  · rw [base_bit (not_le.mp h), Bool.false_and]

theorem low_and_mask : bar.low &&& bar.mask = 0 := by
  refine BitVec.eq_of_getLsbD_eq fun i hi => ?_
  rw [BitVec.getLsbD_and, mask_bit hi]
  by_cases h : 4 ≤ i
  · rw [low_bit h, Bool.false_and]
    exact BitVec.getLsbD_zero.symm
  · have horder := bar.order_ge
    rw [decide_eq_false (show ¬bar.order ≤ i by omega), Bool.and_false]
    exact BitVec.getLsbD_zero.symm

/-- Writing the register back restores it. -/
theorem value_restored : (bar.value &&& bar.mask) ||| bar.low = bar.value := by
  rw [value, BitVec.and_comm, BitVec.and_or_distrib_left, BitVec.and_comm, base_and_mask,
    BitVec.and_comm, low_and_mask]
  exact congrArg (· ||| bar.low) BitVec.or_zero

theorem high_bit {i : Nat} (hi : i < 32) : (0xFFFFFFF0 : BitVec 32).getLsbD i = decide (4 ≤ i) := by
  rw [show (0xFFFFFFF0 : BitVec 32) = ~~~BitVec.ofNat 32 (2 ^ 4 - 1) from rfl, BitVec.getLsbD_not,
    BitVec.getLsbD_ofNat, Nat.testBit_two_pow_sub_one]
  by_cases h : i < 4
  · simp [hi, h]
  · simp [hi, h, not_lt.mp h]

theorem value_high : bar.value &&& 0xFFFFFFF0 = bar.base := by
  refine BitVec.eq_of_getLsbD_eq fun i hi => ?_
  have horder := bar.order_ge
  rw [value, BitVec.getLsbD_and, BitVec.getLsbD_or, high_bit hi]
  by_cases h : 4 ≤ i
  · rw [low_bit h, decide_eq_true h, Bool.or_false, Bool.and_true]
  · rw [base_bit (by omega), decide_eq_false h, Bool.and_false]

theorem value_memory : bar.value &&& 0x1 = 0 := by
  have hlow : ∀ kind : BitVec 3, (kind.setWidth 32 <<< 1 : BitVec 32) &&& 0x1 = 0 := by decide
  have hbase : bar.base &&& 0x1 = 0 := by
    rw [← show bar.value &&& 0xFFFFFFF0 = bar.base from value_high, BitVec.and_assoc]
    exact BitVec.and_zero
  rw [value, BitVec.and_comm, BitVec.and_or_distrib_left, BitVec.and_comm, hbase, BitVec.and_comm, low,
    hlow]
  rfl

/-- What the sizing reads back. -/
theorem mask_read : ((0xFFFFFFFF &&& bar.mask) ||| bar.low) &&& ~~~0xF = bar.mask := by
  refine BitVec.eq_of_getLsbD_eq fun i hi => ?_
  have horder := bar.order_ge
  rw [show (0xFFFFFFFF : BitVec 32) = BitVec.allOnes 32 from rfl, BitVec.allOnes_and,
    show (~~~0xF : BitVec 32) = 0xFFFFFFF0 from rfl, BitVec.getLsbD_and, BitVec.getLsbD_or, high_bit hi,
    mask_bit hi]
  by_cases h : 4 ≤ i
  · rw [low_bit h, decide_eq_true h, Bool.or_false, Bool.and_true]
  · rw [decide_eq_false h, Bool.and_false, decide_eq_false (by omega)]

theorem size_eq : ~~~bar.mask + 1 = BitVec.ofNat 32 (2 ^ bar.order) := by
  have hpos := Nat.two_pow_pos bar.order
  rw [mask, BitVec.not_not]
  exact (BitVec.ofNat_add _ 1).symm.trans (congrArg _ (Nat.sub_add_cancel hpos))

end MemoryBar

section Sizing

variable {σ : Type*} {C : ConfigSpace σ} {bus device func offset : BitVec 8} {bar : MemoryBar}
  {reg : σ → BitVec 32}

/-- **The sizing finds the size and leaves the register as it was.** -/
theorem pciGetBarSize_spec (h : BarAt C (pciAddress bus device func offset) bar reg) {s : σ}
    (hs : reg s = bar.value) :
    (C.pciGetBarSize bus device func offset s).1 = BitVec.ofNat 32 (2 ^ bar.order) ∧
      reg (C.pciGetBarSize bus device func offset s).2 = bar.value := by
  have horig := h.read s
  constructor
  · show ~~~((C.read (C.write _ _ 0xFFFFFFFF) _).1 &&& ~~~0xF) + 1 = _
    rw [(h.read _).1, h.write, MemoryBar.mask_read, MemoryBar.size_eq]
  · show reg (C.write _ _ (C.read s _).1) = _
    rw [h.write, horig.1, hs, MemoryBar.value_restored]

end Sizing

/-! ### The loop -/

/-- The addresses that the loop maps. -/
def ehciPages (phys : Word) (size : Nat) : List Word :=
  (List.range ((size + 0xFFF) / 0x1000)).map fun i => phys + BitVec.ofNat 64 (0x1000 * i)

theorem ehciMapLoop_from (b : Limine) (phys : Word) (size : Nat) : ∀ (n i : Nat) (v : Vmm),
    (size + 0xFFF) / 0x1000 = i + n →
    ehciMapLoop b phys size (0x1000 * i) v =
      exec b v (mapSelf ehciPageFlags
        ((List.range' i n).map fun i => phys + BitVec.ofNat 64 (0x1000 * i))) := by
  intro n
  induction n with
  | zero =>
    intro i v hn
    rw [ehciMapLoop, if_neg (by omega)]
    rfl
  | succ n ih =>
    intro i v hn
    rw [ehciMapLoop, if_pos (by omega), show 0x1000 * i + 0x1000 = 0x1000 * (i + 1) by omega,
      ih (i + 1) _ (by omega), List.range'_succ]
    rfl

theorem ehciMapLoop_eq (b : Limine) (phys : Word) (size : Nat) (v : Vmm) :
    ehciMapLoop b phys size 0 v = exec b v (mapSelf ehciPageFlags (ehciPages phys size)) := by
  rw [ehciPages, List.range_eq_range']
  exact ehciMapLoop_from b phys size _ 0 v (Nat.zero_add _).symm

/-- The function maps the pages that a memory BAR leads to. -/
theorem ehciPciInit_eq {σ : Type*} {C : ConfigSpace σ} {bus device func : BitVec 8} {bar : MemoryBar}
    {reg : σ → BitVec 32} (b : Limine) (h : BarAt C (pciAddress bus device func 0x10) bar reg) {cs : σ}
    (hs : reg cs = bar.value) (v : Vmm) :
    (ehciPciInit b C bus device func cs v).2.2 =
      exec b v (mapSelf ehciPageFlags (ehciPages (bar.base.setWidth 64) (2 ^ bar.order % 2 ^ 32))) := by
  have hread := h.read cs
  have hsize := (pciGetBarSize_spec h (hread.2.trans hs)).1
  have hvalue : (C.pciRead bus device func 0x10 cs).1 = bar.value := hread.1.trans hs
  rw [ehciPciInit]
  dsimp only
  rw [hvalue, MemoryBar.value_memory, if_neg (not_not.mpr rfl), MemoryBar.value_high]
  show ehciMapLoop b _ (C.pciGetBarSize bus device func 0x10 _).1.toNat 0 v = _
  rw [show (C.pciRead bus device func 0x10 cs).2 = (C.read cs _).2 from rfl, hsize, BitVec.toNat_ofNat,
    ehciMapLoop_eq]

/-! ### What the hardware finds -/

/-- `x` is an address of the registers. -/
def MemoryBar.Covers (bar : MemoryBar) (x : Word) : Prop :=
  bar.base.toNat ≤ x.toNat ∧ x.toNat < bar.base.toNat + 2 ^ bar.order

/-- Whatever the tables are that `map_page` can work with, the registers are mapped at their
own address, with the flags of the loop and no others. -/
def EhciMapsExactly (bar : MemoryBar) : Prop :=
  ∀ (b : Limine) (s : Vmm) (L out : List Word), b.Ok → (∀ f, b.UsableFrame f → f.toNat < 2 ^ 52) →
    Sound b decHw s L out →
    EachStep b (fun s op => op.Ready b s) s
      (mapSelf ehciPageFlags (ehciPages (bar.base.setWidth 64) (2 ^ bar.order % 2 ^ 32))) →
    ∀ (σ : Type) (C : ConfigSpace σ) (bus device func : BitVec 8) (reg : σ → BitVec 32) (cs : σ),
      BarAt C (pciAddress bus device func 0x10) bar reg → reg cs = bar.value →
      ∀ x, bar.Covers x → MapsSelf ehciPageFlags b (ehciPciInit b C bus device func cs s).2.2 x

section Exact

variable {bar : MemoryBar}

theorem ehciPageFlags_frame : ehciPageFlags &&& addressMask = 0 := by decide

theorem ehciPage_toNat (bar : MemoryBar) {i : Nat} (hi : i < 2 ^ 20) :
    (bar.base.setWidth 64 + BitVec.ofNat 64 (0x1000 * i)).toNat = bar.base.toNat + 0x1000 * i := by
  have hlt := bar.base.isLt
  rw [BitVec.toNat_add, BitVec.toNat_setWidth_of_le (by decide), BitVec.toNat_ofNat]
  omega

theorem mem_ehciPages {v : Word} (horder : bar.order < 32)
    (hv : v ∈ ehciPages (bar.base.setWidth 64) (2 ^ bar.order)) :
    v.toNat < 2 ^ 33 ∧ v.toNat % 4096 = bar.base.toNat % 4096 := by
  obtain ⟨i, hi, rfl⟩ := List.mem_map.mp hv
  have hlt := bar.base.isLt
  have hsize : 2 ^ bar.order ≤ 2 ^ 31 := Nat.pow_le_pow_right (by decide) (by omega)
  have hrange := List.mem_range.mp hi
  rw [ehciPage_toNat bar (by omega)]
  omega

/-- A small BAR does not cross a page boundary. -/
theorem base_fits (hsmall : bar.order < 12) : bar.base.toNat % 4096 + 2 ^ bar.order ≤ 4096 := by
  have hpage : 2 ^ bar.order ∣ 4096 := Nat.pow_dvd_pow 2 (show bar.order ≤ 12 by omega)
  obtain ⟨r, hr⟩ := hpage
  obtain ⟨q, hq⟩ := (Nat.dvd_mod_iff ⟨r, hr⟩).mpr (Nat.dvd_of_mod_eq_zero bar.aligned)
  have hlt : 2 ^ bar.order * q < 2 ^ bar.order * r := by
    rw [← hq, ← hr]
    exact Nat.mod_lt _ (by decide)
  have hle : 2 ^ bar.order * (q + 1) ≤ 2 ^ bar.order * r :=
    Nat.mul_le_mul_left _ (lt_of_mul_lt_mul_left' hlt)
  rw [hq]
  calc 2 ^ bar.order * q + 2 ^ bar.order = 2 ^ bar.order * (q + 1) := (Nat.mul_succ _ _).symm
    _ ≤ 2 ^ bar.order * r := hle
    _ = 4096 := hr.symm

theorem base_mod_of_large (hlarge : 12 ≤ bar.order) : bar.base.toNat % 4096 = 0 := by
  have hpage : 4096 ∣ 2 ^ bar.order := Nat.pow_dvd_pow 2 hlarge
  exact Nat.mod_eq_zero_of_dvd (hpage.trans (Nat.dvd_of_mod_eq_zero bar.aligned))

/-- Each address of the registers is in a page that the loop maps. -/
theorem exists_page {x : Word} (horder : bar.order < 32) (hx : bar.Covers x) :
    ∃ v ∈ ehciPages (bar.base.setWidth 64) (2 ^ bar.order), pageNumber x = pageNumber v := by
  obtain ⟨hle, hlt⟩ := hx
  have hbase := bar.base.isLt
  have hsize : 2 ^ bar.order ≤ 2 ^ 31 := Nat.pow_le_pow_right (by decide) (by omega)
  have hi : (x.toNat - bar.base.toNat) / 0x1000 < (2 ^ bar.order + 0xFFF) / 0x1000 := by omega
  refine ⟨_, List.mem_map.mpr ⟨_, List.mem_range.mpr hi, rfl⟩, ?_⟩
  apply BitVec.eq_of_toNat_eq
  rw [pageNumber_toNat, pageNumber_toNat, ehciPage_toNat bar (by omega)]
  by_cases hsmall : bar.order < 12
  · have hfits := base_fits hsmall
    omega
  · have hmod := base_mod_of_large (not_lt.mp hsmall)
    omega

theorem low_flags {n : Nat} (hn : n = 0 ∨ n = 16) :
    BitVec.ofNat 64 n ||| ehciPageFlags ||| ptePresent = ehciPageFlags := by
  rcases hn with rfl | rfl <;> decide

/-- Of the low bits that a base can have only the one of `PTE_CACHE_DISABLE` does no harm. -/
theorem low_of_flags : ∀ n < 256, BitVec.ofNat 64 (16 * n) ||| ehciPageFlags ||| ptePresent = ehciPageFlags →
    n = 0 ∨ n = 1 := by
  decide +kernel

/-! ### A controller with any BAR -/

/-- A configuration space with one register. -/
def oneBar (bar : MemoryBar) : ConfigSpace (BitVec 32) where
  read s _ := (s, s)
  write _ _ data := (data &&& bar.mask) ||| bar.low

theorem barAt_oneBar (address : BitVec 32) : BarAt (oneBar bar) address bar id where
  read _ := ⟨rfl, rfl⟩
  write _ _ := rfl

theorem ehciPciInit_oneBar (s : Vmm) :
    (ehciPciInit exampleRam (oneBar bar) 0 0 0 bar.value s).2.2 =
      exec exampleRam s
        (mapSelf ehciPageFlags (ehciPages (bar.base.setWidth 64) (2 ^ bar.order % 2 ^ 32))) :=
  ehciPciInit_eq exampleRam (barAt_oneBar (pciAddress 0 0 0 0x10)) (rfl : id bar.value = bar.value) s

theorem order_of_maps (h : EhciMapsExactly bar) : bar.order < 32 := by
  by_contra hlarge
  obtain ⟨s, L, hsound, hblank, _⟩ := exampleRam_fresh
  have hdvd : 2 ^ 32 ∣ 2 ^ bar.order := Nat.pow_dvd_pow 2 (not_lt.mp hlarge)
  have hsize : 2 ^ bar.order % 2 ^ 32 = 0 := Nat.mod_eq_zero_of_dvd hdvd
  have hpos := Nat.two_pow_pos bar.order
  have hbase : (bar.base.setWidth 64).toNat = bar.base.toNat := BitVec.toNat_setWidth_of_le (by decide)
  -- no page is mapped
  obtain ⟨e, hwalk, _⟩ := h exampleRam s L [] exampleRam_ok exampleRam_phys hsound
    (by rw [hsize]; exact trivial) (BitVec 32) (oneBar bar) 0 0 0 id bar.value (barAt_oneBar _) rfl
    (bar.base.setWidth 64) ⟨hbase.ge, by omega⟩
  rw [ehciPciInit_oneBar, hsize, mmuWalk_eq_find] at hwalk
  exact absurd (hwalk.symm.trans (hblank _)) (Option.some_ne_none _)

theorem low_of_maps (h : EhciMapsExactly bar) (hsmall : bar.order < 12) :
    bar.base.toNat % 4096 = 0 ∨ bar.base.toNat % 4096 = 16 := by
  obtain ⟨s, L, hsound, _, hready⟩ := exampleRam_fresh
  let v : Word := bar.base.setWidth 64
  have hv : v.toNat = bar.base.toNat := BitVec.toNat_setWidth_of_le (by decide)
  have hlt := bar.base.isLt
  have hpos := Nat.two_pow_pos bar.order
  have hsize : 2 ^ bar.order ≤ 2 ^ 11 := Nat.pow_le_pow_right (by decide) (by omega)
  have hpages : ehciPages v (2 ^ bar.order % 2 ^ 32) = [v] := by
    rw [ehciPages, show (2 ^ bar.order % 2 ^ 32 + 0xFFF) / 0x1000 = 1 by omega]
    exact congrArg (· :: []) (BitVec.add_zero v)
  obtain ⟨e, hwalk, _, hflags⟩ := h exampleRam s L [] exampleRam_ok exampleRam_phys hsound
    (by rw [hpages]; exact ⟨hready v v ehciPageFlags, trivial⟩) (BitVec 32) (oneBar bar) 0 0 0 id
    bar.value (barAt_oneBar _) rfl v ⟨hv.ge, by omega⟩
  rw [ehciPciInit_oneBar, hpages, mmuWalk_eq_find] at hwalk
  rcases exec_mapSelf exampleRam_ok (decoder_decHw exampleRam_phys) ehciPageFlags [v] s L [] hsound
    ⟨hready v v ehciPageFlags, trivial⟩ v with ⟨hother, _⟩ | ⟨w, hw, _, hleaf⟩
  · exact absurd rfl (hother v List.mem_cons_self)
  · rw [List.mem_singleton.mp hw] at hleaf
    have he : e = leafEntry (v, ehciPageFlags) :=
      congrArg Prod.snd (Option.some.inj (hwalk.symm.trans hleaf))
    rw [he, leafEntry_flags (by omega) ehciPageFlags_frame, and_low_eq, hv] at hflags
    -- a base is a multiple of 16
    have hdvd : 16 ∣ bar.base.toNat :=
      (Nat.pow_dvd_pow 2 bar.order_ge).trans (Nat.dvd_of_mod_eq_zero bar.aligned)
    have hlow := low_of_flags (bar.base.toNat % 4096 / 16) (by omega)
    rw [show 16 * (bar.base.toNat % 4096 / 16) = bar.base.toNat % 4096 by omega] at hlow
    rcases hlow hflags with hzero | hone <;> omega

/-- **When the mapping of the registers is exact.** -/
theorem ehci_maps_exactly_iff (bar : MemoryBar) :
    EhciMapsExactly bar ↔
      bar.order < 32 ∧ (bar.base.toNat % 4096 = 0 ∨ bar.base.toNat % 4096 = 16) := by
  constructor
  · intro h
    refine ⟨order_of_maps h, ?_⟩
    by_cases hsmall : bar.order < 12
    · exact low_of_maps h hsmall
    · exact Or.inl (base_mod_of_large (not_lt.mp hsmall))
  · rintro ⟨horder, hlow⟩ b s L out hb hphys hsound hready σ C bus device func reg cs hbar hreg x hx
    have hsize : 2 ^ bar.order % 2 ^ 32 = 2 ^ bar.order :=
      Nat.mod_eq_of_lt (Nat.pow_lt_pow_right (by decide) horder)
    rw [hsize] at hready
    rw [ehciPciInit_eq b hbar hreg, hsize]
    obtain ⟨v₀, hv₀, hpage₀⟩ := exists_page horder hx
    rcases exec_mapSelf hb (decoder_decHw hphys) ehciPageFlags _ s L out hsound hready x with
      ⟨hother, _⟩ | ⟨v, hv, hpage, hleaf⟩
    · exact absurd hpage₀ (hother v₀ hv₀)
    · obtain ⟨hlt, hmod⟩ := mem_ehciPages horder hv
      have hbase := bar.base.isLt
      have hxlt : x.toNat < 2 ^ 33 := by
        have hle : 2 ^ bar.order ≤ 2 ^ 31 := Nat.pow_le_pow_right (by decide) (by omega)
        have hcover := hx.2
        omega
      refine mapsSelf_of_find hleaf (pageOf_eq_of_pageNumber (by omega) (by omega) hpage) (by omega)
        ehciPageFlags_frame ?_
      rw [and_low_eq, hmod]
      exact low_flags hlow

/-- One kilobyte at `0xFEB00400`. -/
def exampleBar : MemoryBar where
  order := 10
  base := 0xFEB00400
  kind := 0
  order_ge := by decide
  aligned := by decide

/-- The entry of the example has a bit that is ignored set. -/
theorem exampleBar_not_exact : ¬EhciMapsExactly exampleBar := fun h =>
  absurd (low_of_maps h (by decide)) (by decide)

end Exact

end AncoreOS.Drivers
