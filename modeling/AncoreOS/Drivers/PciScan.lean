import AncoreOS.Drivers.Pci

/-!
# What the enumeration visits

The recursion of the scan follows bus numbers that it reads, without a record of the buses
it has been on.  It ends exactly when no bus it comes to leads back to itself
(`startPciEnumeration_terminates_iff`).

Each function is examined as often as its bus is scanned, if the scan sees it at all
(`count_classRead`).  In a well-formed topology a bus is scanned once for every start bus
that it lies behind.  With a multi-function device at `0:0` the start buses are what the
functions of that device have at offset `0x19`, and `examinesOnce_iff` says which values
there visit every function once.
-/

namespace AncoreOS.Drivers

open CallTree Relation

/-! ### Functions and buses -/

/-- A place for a PCI function. -/
@[ext]
structure Bdf where
  bus : BitVec 8
  device : BitVec 8
  func : BitVec 8
  device_lt : device.toNat < 32
  func_lt : func.toNat < 8

namespace Bdf

variable (cfg : Cfg) (p : Bdf)

def Present : Prop := Drivers.Present cfg p.bus p.device p.func

def IsBridge : Prop := Drivers.IsBridge cfg p.bus p.device p.func

def secondaryBus : BitVec 8 := Drivers.secondaryBus cfg p.bus p.device p.func

/-- The scan looks at function `0` of every device, and at the others if that one is there
and says that the device has more. -/
def Visible : Prop :=
  Drivers.Present cfg p.bus p.device 0 ∧ (p.func = 0 ∨ MultiFunction cfg p.bus p.device)

/-- The read of the class code. -/
def classRead : PciEvent := .read p.bus p.device p.func 0x08

end Bdf

/-- The fields of an address. -/
theorem pciAddress_fields (p : Bdf) (offset : BitVec 8) :
    pciAddress p.bus p.device p.func offset >>> 16 &&& 0xFF#32 = p.bus.setWidth 32 ∧
      pciAddress p.bus p.device p.func offset >>> 11 &&& 0x1F#32 = p.device.setWidth 32 ∧
      pciAddress p.bus p.device p.func offset >>> 8 &&& 0x07#32 = p.func.setWidth 32 := by
  -- No field reaches into another, and there are 256 values for each.
  have hbus : ∀ b : BitVec 8, (b.setWidth 32 <<< 16) >>> 16 &&& 0xFF#32 = b.setWidth 32 ∧
      (b.setWidth 32 <<< 16) >>> 11 &&& 0x1F#32 = 0 ∧
      (b.setWidth 32 <<< 16) >>> 8 &&& 0x07#32 = 0 := by decide
  have hdevice : ∀ d : BitVec 8, d.toNat < 32 → (d.setWidth 32 <<< 11) >>> 16 &&& 0xFF#32 = 0 ∧
      (d.setWidth 32 <<< 11) >>> 11 &&& 0x1F#32 = d.setWidth 32 ∧
      (d.setWidth 32 <<< 11) >>> 8 &&& 0x07#32 = 0 := by decide
  have hfunc : ∀ f : BitVec 8, f.toNat < 8 → (f.setWidth 32 <<< 8) >>> 16 &&& 0xFF#32 = 0 ∧
      (f.setWidth 32 <<< 8) >>> 11 &&& 0x1F#32 = 0 ∧
      (f.setWidth 32 <<< 8) >>> 8 &&& 0x07#32 = f.setWidth 32 := by decide
  have hoffset : ∀ o : BitVec 8, (o &&& 0xFC).setWidth 32 >>> 16 &&& 0xFF#32 = 0 ∧
      (o &&& 0xFC).setWidth 32 >>> 11 &&& 0x1F#32 = 0 ∧
      (o &&& 0xFC).setWidth 32 >>> 8 &&& 0x07#32 = 0 := by decide
  obtain ⟨hb₁, hb₂, hb₃⟩ := hbus p.bus
  obtain ⟨hd₁, hd₂, hd₃⟩ := hdevice p.device p.device_lt
  obtain ⟨hf₁, hf₂, hf₃⟩ := hfunc p.func p.func_lt
  obtain ⟨ho₁, ho₂, ho₃⟩ := hoffset offset
  unfold pciAddress
  simp only [BitVec.ushiftRight_or_distrib, BitVec.and_or_distrib_right, hb₁, hb₂, hb₃, hd₁, hd₂,
    hd₃, hf₁, hf₂, hf₃, ho₁, ho₂, ho₃]
  simp

/-- Different functions have different addresses. -/
theorem Bdf.eq_of_pciAddress {p q : Bdf} {offset offset' : BitVec 8}
    (h : pciAddress p.bus p.device p.func offset = pciAddress q.bus q.device q.func offset') :
    p = q := by
  have hinj : ∀ x y : BitVec 8, x.setWidth 32 = y.setWidth 32 → x = y := by
    intro x y hxy
    have := congrArg (BitVec.setWidth 8) hxy
    simpa using this
  have hp := pciAddress_fields p offset
  rw [h] at hp
  have hq := pciAddress_fields q offset'
  exact Bdf.ext (hinj _ _ (hp.1.symm.trans hq.1)) (hinj _ _ (hp.2.1.symm.trans hq.2.1))
    (hinj _ _ (hp.2.2.symm.trans hq.2.2))

/-- A bridge that the scan sees leads from `bus` to `bus'`. -/
def Leads (cfg : Cfg) (bus bus' : BitVec 8) : Prop :=
  ∃ p : Bdf, p.bus = bus ∧ p.Visible cfg ∧ p.IsBridge cfg ∧ p.secondaryBus cfg = bus'

/-- A bridge leads from `bus` to `bus'`. -/
def Behind (cfg : Cfg) (bus bus' : BitVec 8) : Prop :=
  ∃ p : Bdf, p.bus = bus ∧ p.IsBridge cfg ∧ p.secondaryBus cfg = bus'

/-- The bus is behind bridges from bus `0`. -/
def Reached (cfg : Cfg) (bus : BitVec 8) : Prop := ReflTransGen (Behind cfg) 0 bus

/-- The buses that `start_pci_enumeration` scans. -/
def startBuses (cfg : Cfg) : List (BitVec 8) :=
  if headerType cfg 0 0 0 &&& 0x80 = 0 then [0]
  else ((below 8).filter fun func => Present cfg 0 0 func).map fun func => secondaryBus cfg 0 0 func

/-! ### The lists of the scan -/

theorem mem_below {limit : Nat} (h : limit ≤ 256) {x : BitVec 8} :
    x ∈ below limit ↔ x.toNat < limit := by
  unfold below
  rw [List.mem_map]
  constructor
  · rintro ⟨n, hn, rfl⟩
    rw [List.mem_range] at hn
    rw [BitVec.toNat_ofNat]
    omega
  · intro hx
    exact ⟨x.toNat, List.mem_range.mpr hx, by simp⟩

theorem nodup_below {limit : Nat} (h : limit ≤ 256) : (below limit).Nodup := by
  refine (List.nodup_range).map_on ?_
  intro n hn m hm heq
  rw [List.mem_range] at hn hm
  have := congrArg BitVec.toNat heq
  rw [BitVec.toNat_ofNat, BitVec.toNat_ofNat] at this
  omega

/-- The functions of a device that are looked at. -/
def looked (cfg : Cfg) (bus device : BitVec 8) : List (BitVec 8) :=
  if vendorId cfg bus device 0 = 0xFFFF then [] else below (funcLimit cfg bus device)

section Lists

variable {cfg : Cfg} {bus device func : BitVec 8}

theorem funcLimit_le : funcLimit cfg bus device ≤ 256 := by
  unfold funcLimit
  split <;> decide

theorem mem_looked {p : Bdf} : p.func ∈ looked cfg p.bus p.device ↔ p.Visible cfg := by
  have hlt := p.func_lt
  have hzero : p.func = 0 ↔ p.func.toNat < 1 := by
    rw [Nat.lt_one_iff, ← BitVec.toNat_inj]
    rfl
  unfold looked Bdf.Visible Drivers.Present MultiFunction
  by_cases hv : vendorId cfg p.bus p.device 0 = 0xFFFF
  · rw [if_pos hv]
    exact iff_of_false List.not_mem_nil (fun h => h.1 hv)
  · rw [if_neg hv, mem_below funcLimit_le, funcLimit]
    by_cases hm : headerType cfg p.bus p.device 0 &&& 0x80 ≠ 0
    · rw [if_pos hm]
      exact iff_of_true hlt ⟨hv, Or.inr hm⟩
    · rw [if_neg hm, ← hzero]
      exact ⟨fun h => ⟨hv, Or.inl h⟩, fun h => h.2.resolve_right hm⟩

theorem mem_looked_lt (h : func ∈ looked cfg bus device) : func.toNat < 8 := by
  unfold looked at h
  split at h
  · exact absurd h List.not_mem_nil
  · rw [mem_below funcLimit_le, funcLimit] at h
    split at h <;> omega

theorem nodup_looked : (looked cfg bus device).Nodup := by
  unfold looked
  split
  · exact List.nodup_nil
  · exact nodup_below funcLimit_le

theorem callees_scanPciFunction :
    callees (scanPciFunction cfg bus device func) =
      if IsBridge cfg bus device func then [secondaryBus cfg bus device func] else [] := by
  unfold scanPciFunction
  by_cases hv : vendorId cfg bus device func = 0xFFFF
  · rw [if_pos hv, if_neg (fun h : IsBridge cfg bus device func => h.1 hv)]
    rfl
  · rw [if_neg hv]
    show callees (if _ then _ else _) = _
    by_cases h1 : classCode cfg bus device func = 0x01
    · have hno : ¬IsBridge cfg bus device func :=
        fun h => absurd (h1.symm.trans h.2.1) (by decide)
      rw [if_pos h1, if_neg hno, callees_emits]
    · rw [if_neg h1]
      by_cases hC : classCode cfg bus device func = 0x0C ∧ subclass cfg bus device func = 0x03
      · have hno : ¬IsBridge cfg bus device func :=
          fun h => absurd (hC.1.symm.trans h.2.1) (by decide)
        rw [if_pos hC, if_neg hno, callees_emits]
      · rw [if_neg hC]
        by_cases h6 : classCode cfg bus device func = 0x06 ∧ subclass cfg bus device func = 0x04
        · have hyes : IsBridge cfg bus device func := ⟨hv, h6⟩
          rw [if_pos h6, if_pos hyes]
          rfl
        · rw [if_neg h6, if_neg (fun h : IsBridge cfg bus device func => h6 h.2)]
          rfl

theorem classRead_eq (p : Bdf) (offset : BitVec 8) :
    PciEvent.read bus device func offset = p.classRead ↔
      (bus = p.bus ∧ device = p.device ∧ func = p.func) ∧ offset = 0x08 := by
  unfold Bdf.classRead
  rw [PciEvent.read.injEq]
  tauto

/-- The drivers' branches do not look at the class code again. -/
theorem classRead_not_mem (p : Bdf) :
    p.classRead ∉ storageController cfg bus device func ∧
      p.classRead ∉ usbController cfg bus device func := by
  constructor
  · intro h
    unfold storageController at h
    (repeat' split at h) <;> simp [Bdf.classRead] at h
  · intro h
    unfold usbController at h
    (repeat' split at h) <;> simp [Bdf.classRead] at h

theorem count_scanPciFunction (p : Bdf) :
    (emits (scanPciFunction cfg bus device func)).count p.classRead =
      if (bus = p.bus ∧ device = p.device ∧ func = p.func) ∧ Present cfg bus device func then 1
      else 0 := by
  have hother : ∀ (offset : BitVec 8) (es : List PciEvent), offset ≠ 0x08 →
      (PciEvent.read bus device func offset :: es).count p.classRead = es.count p.classRead := by
    intro offset es hne
    exact List.count_cons_of_ne fun h => hne ((classRead_eq p offset).mp h).2
  unfold scanPciFunction
  show (PciEvent.read bus device func 0x00 :: emits (if _ then _ else _)).count _ = _
  rw [hother _ _ (by decide)]
  by_cases hv : vendorId cfg bus device func = 0xFFFF
  · rw [if_pos hv, if_neg (fun h => h.2 hv)]
    rfl
  · have hp : Present cfg bus device func := hv
    rw [if_neg hv]
    show (PciEvent.read bus device func 0x08 :: emits (if _ then _ else _)).count _ = _
    have hrest : (emits (if classCode cfg bus device func = 0x01 then
          ((storageController cfg bus device func).map Item.emit : List PciItem)
        else if classCode cfg bus device func = 0x0C ∧ subclass cfg bus device func = 0x03 then
          (usbController cfg bus device func).map .emit
        else if classCode cfg bus device func = 0x06 ∧ subclass cfg bus device func = 0x04 then
          [.emit (.read bus device func 0x18), .call (secondaryBus cfg bus device func)]
        else [])).count p.classRead = 0 := by
      split
      · rw [emits_emits]
        exact List.count_eq_zero.mpr (classRead_not_mem p).1
      · split
        · rw [emits_emits]
          exact List.count_eq_zero.mpr (classRead_not_mem p).2
        · split
          · exact hother _ [] (by decide)
          · rfl
    rw [List.count_cons, hrest, Nat.zero_add]
    by_cases hplace : bus = p.bus ∧ device = p.device ∧ func = p.func
    · rw [if_pos (by simpa using (classRead_eq p 0x08).mpr ⟨hplace, rfl⟩), if_pos ⟨hplace, hp⟩]
    · rw [if_neg (fun h => hplace ((classRead_eq p 0x08).mp (by simpa using h)).1),
        if_neg (fun h => hplace h.1)]

theorem callees_scanPciDevice :
    callees (scanPciDevice cfg bus device) =
      (looked cfg bus device).flatMap fun func =>
        if IsBridge cfg bus device func then [secondaryBus cfg bus device func] else [] := by
  unfold scanPciDevice looked
  show callees (if _ then _ else _) = _
  split
  · rfl
  · show callees (List.flatMap _ _) = _
    rw [callees_flatMap]
    exact List.flatMap_congr fun func _ => callees_scanPciFunction

theorem emits_scanPciDevice (p : Bdf) :
    (emits (scanPciDevice cfg bus device)).count p.classRead =
      ((looked cfg bus device).flatMap fun func =>
        emits (scanPciFunction cfg bus device func)).count p.classRead := by
  have hother : ∀ (offset : BitVec 8) (es : List PciEvent), offset ≠ 0x08 →
      (PciEvent.read bus device 0 offset :: es).count p.classRead = es.count p.classRead := by
    intro offset es hne
    exact List.count_cons_of_ne fun h => hne ((classRead_eq p offset).mp h).2
  unfold scanPciDevice looked
  show (PciEvent.read bus device 0 0x00 :: emits (if _ then _ else _)).count _ = _
  rw [hother _ _ (by decide)]
  split
  · rfl
  · show (PciEvent.read bus device 0 0x0C :: emits (List.flatMap _ _)).count _ = _
    rw [hother _ _ (by decide), emits_flatMap]

/-- The scan of a bus calls itself for the buses that it leads to. -/
theorem mem_callees_scanPciBus {bus' : BitVec 8} :
    bus' ∈ callees (scanPciBus cfg bus) ↔ Leads cfg bus bus' := by
  unfold scanPciBus
  rw [callees_flatMap, List.mem_flatMap]
  constructor
  · rintro ⟨device, hdevice, h⟩
    rw [callees_scanPciDevice, List.mem_flatMap] at h
    obtain ⟨func, hfunc, h⟩ := h
    let p : Bdf := ⟨bus, device, func, (mem_below (by decide)).mp hdevice, mem_looked_lt hfunc⟩
    split at h
    · rename_i hbridge
      exact ⟨p, rfl, mem_looked.mp hfunc, hbridge, (List.mem_singleton.mp h).symm⟩
    · exact absurd h List.not_mem_nil
  · rintro ⟨p, rfl, hvisible, hbridge, rfl⟩
    refine ⟨p.device, (mem_below (by decide)).mpr p.device_lt, ?_⟩
    rw [callees_scanPciDevice, List.mem_flatMap]
    refine ⟨p.func, mem_looked.mpr hvisible, ?_⟩
    rw [if_pos (show Drivers.IsBridge cfg p.bus p.device p.func from hbridge)]
    exact List.mem_singleton_self _

/-- The scan of a bus examines each function of it that it sees, and no other. -/
theorem count_scanPciBus (p : Bdf) (hp : p.Present cfg) :
    (p.bus = bus → p.Visible cfg → (emits (scanPciBus cfg bus)).count p.classRead = 1) ∧
      (p.bus ≠ bus → (emits (scanPciBus cfg bus)).count p.classRead = 0) ∧
      (¬p.Visible cfg → (emits (scanPciBus cfg bus)).count p.classRead = 0) := by
  have hnone : ∀ bus device func, ¬(bus = p.bus ∧ device = p.device ∧ func = p.func) →
      (emits (scanPciFunction cfg bus device func)).count p.classRead = 0 := by
    intro bus device func h
    rw [count_scanPciFunction, if_neg (fun hh => h hh.1)]
  unfold scanPciBus
  rw [emits_flatMap]
  refine ⟨?_, ?_, ?_⟩
  · rintro rfl hvisible
    rw [count_flatMap_of_one (v := p.device) (nodup_below (by decide))
      ((mem_below (by decide)).mpr p.device_lt), emits_scanPciDevice,
      count_flatMap_of_one nodup_looked (mem_looked.mpr hvisible), count_scanPciFunction,
      if_pos ⟨⟨rfl, rfl, rfl⟩, hp⟩]
    · exact fun func _ hne => hnone _ _ _ fun h => hne h.2.2
    · intro device _ hne
      rw [emits_scanPciDevice]
      exact count_flatMap_of_none fun func _ => hnone _ _ _ fun h => hne h.2.1
  · intro hne
    refine count_flatMap_of_none fun device _ => ?_
    rw [emits_scanPciDevice]
    exact count_flatMap_of_none fun func _ => hnone _ _ _ fun h => hne h.1.symm
  · intro hvisible
    refine count_flatMap_of_none fun device _ => ?_
    rw [emits_scanPciDevice]
    refine count_flatMap_of_none fun func hfunc => hnone _ _ _ ?_
    rintro ⟨rfl, rfl, rfl⟩
    exact hvisible (mem_looked.mp hfunc)

theorem callees_startScript : callees (startScript cfg) = startBuses cfg := by
  have hloop : ∀ fs : List (BitVec 8), callees (fs.flatMap (startFunction cfg)) =
      (fs.filter fun func => Present cfg 0 0 func).map fun func => secondaryBus cfg 0 0 func := by
    intro fs
    induction fs with
    | nil => rfl
    | cons func fs ih =>
      rw [callees_flatMap] at ih ⊢
      rw [List.flatMap_cons, ih]
      by_cases hp : Present cfg 0 0 func
      · rw [List.filter_cons_of_pos (by simpa using hp), startFunction, if_neg hp]
        rfl
      · have hv : vendorId cfg 0 0 func = 0xFFFF := not_not.mp hp
        rw [List.filter_cons_of_neg (by simpa using hp), startFunction, if_pos hv]
        rfl
  unfold startScript startBuses
  show callees (if _ then _ else _) = _
  split
  · rfl
  · exact hloop _

/-- The start of the enumeration reads no class code. -/
theorem count_startScript (p : Bdf) : (emits (startScript cfg)).count p.classRead = 0 := by
  refine List.count_eq_zero.mpr fun h => ?_
  unfold startScript at h
  obtain h | h := List.mem_cons.mp (show p.classRead ∈ PciEvent.read 0 0 0 0x0C :: emits _ from h)
  · exact absurd ((classRead_eq p 0x0C).mp h.symm).2 (by decide)
  · split at h
    · exact absurd h List.not_mem_nil
    · rw [emits_flatMap, List.mem_flatMap] at h
      obtain ⟨func, _, h⟩ := h
      unfold startFunction at h
      obtain h | h := List.mem_cons.mp (show p.classRead ∈ PciEvent.read 0 0 func 0x00 :: emits _ from h)
      · exact absurd ((classRead_eq p 0x00).mp h.symm).2 (by decide)
      · split at h
        · exact absurd h List.not_mem_nil
        · exact absurd ((classRead_eq p 0x18).mp (List.mem_singleton.mp h).symm).2 (by decide)

end Lists

/-! ### The depth of the recursion -/

instance finiteByte : Finite (BitVec 8) :=
  .of_injective (fun b : BitVec 8 => b.toFin) fun _ _ h => BitVec.eq_of_toFin_eq h

/-- The scan as a recursive procedure. -/
def busCallees (cfg : Cfg) (bus : BitVec 8) : List (BitVec 8) := callees (scanPciBus cfg bus)

theorem calls_eq_leads (cfg : Cfg) : Calls (busCallees cfg) = Leads cfg := by
  funext bus bus'
  exact propext mem_callees_scanPciBus

theorem startPciEnumeration_isSome {cfg : Cfg} {depth : Nat} :
    (startPciEnumeration cfg depth).isSome ↔
      ∀ start ∈ startBuses cfg, Within (busCallees cfg) depth start := by
  unfold startPciEnumeration
  rw [exec_isSome, callees_startScript]
  exact forall₂_congr fun start _ => run_isSome depth start

/-- **The enumeration ends** exactly when no bus that it comes to is behind itself. -/
theorem startPciEnumeration_terminates_iff (cfg : Cfg) :
    (∃ depth, (startPciEnumeration cfg depth).isSome) ↔
      ∀ start ∈ startBuses cfg, ∀ bus, ReflTransGen (Leads cfg) start bus →
        ¬TransGen (Leads cfg) bus bus := by
  simp only [startPciEnumeration_isSome, ← calls_eq_leads]
  constructor
  · rintro ⟨depth, h⟩ start hstart
    exact exists_within_iff_no_cycle.mp ⟨depth, h start hstart⟩
  · exact fun h => exists_within_all _ fun start hstart =>
      exists_within_iff_no_cycle.mpr (h start hstart)

/-- One bridge at `0:0.0` whose secondary bus has not been set. -/
def exampleLoop : Cfg := fun address =>
  if address = 0x80000000 then 0x24488086
  else if address = 0x80000008 then 0x06040000
  else if address = 0x8000000C then 0x00010000
  else if address = 0x80000018 then 0x00000000
  else 0xFFFFFFFF

theorem exampleLoop_leads : Leads exampleLoop 0 0 :=
  ⟨⟨0, 0, 0, by decide, by decide⟩, rfl, ⟨by decide, Or.inl rfl⟩, ⟨by decide, by decide, by decide⟩,
    by decide⟩

/-- Bus `0` is scanned again and again. -/
theorem exampleLoop_not_terminates :
    ¬∀ cfg : Cfg, ∃ depth, (startPciEnumeration cfg depth).isSome := by
  intro h
  obtain ⟨depth, hsome⟩ := h exampleLoop
  have hzero : 0 ∈ startBuses exampleLoop := by decide
  have hwithin := startPciEnumeration_isSome.mp hsome 0 hzero
  refine no_cycle_of_acc hwithin.acc (.single ?_)
  rw [calls_eq_leads]
  exact exampleLoop_leads

/-! ### How often a function is examined -/

/-- The bridges lead to higher buses, and no two to the same. -/
structure WellFormed (cfg : Cfg) : Prop where
  above : ∀ p : Bdf, p.IsBridge cfg → p.bus < p.secondaryBus cfg
  unshared : ∀ p q : Bdf, p.IsBridge cfg → q.IsBridge cfg →
    p.secondaryBus cfg = q.secondaryBus cfg → p = q

/-- Every present function on a bus that bridges lead to from bus `0` is examined once. -/
def ExaminesOnce (cfg : Cfg) : Prop :=
  ∃ depth log, startPciEnumeration cfg depth = some log ∧
    ∀ p : Bdf, Reached cfg p.bus → p.Present cfg → log.count p.classRead = 1

/-- There is no function on the bus. -/
def EmptyBus (cfg : Cfg) (bus : BitVec 8) : Prop := ∀ p : Bdf, p.bus = bus → ¬p.Present cfg

/-- No function hides behind a device that does not announce it, and the start buses hold
bus `0` once and no other bus that the scan of bus `0` finds something on. -/
structure ScansOnce (cfg : Cfg) : Prop where
  noneHidden : ∀ p : Bdf, Reached cfg p.bus → p.Present cfg → p.Visible cfg
  start : EmptyBus cfg 0 ∨ ((startBuses cfg).count 0 = 1 ∧
    ∀ bus ∈ startBuses cfg, bus ≠ 0 → Reached cfg bus → EmptyBus cfg bus)

section Count

variable {cfg : Cfg} {bus : BitVec 8}

theorem Leads.behind {bus bus' : BitVec 8} (h : Leads cfg bus bus') : Behind cfg bus bus' := by
  obtain ⟨p, hbus, _, hbridge, hsec⟩ := h
  exact ⟨p, hbus, hbridge, hsec⟩

theorem WellFormed.lt (hwf : WellFormed cfg) {bus bus' : BitVec 8} (h : Behind cfg bus bus') :
    bus < bus' := by
  obtain ⟨p, rfl, hbridge, rfl⟩ := h
  exact hwf.above p hbridge

theorem WellFormed.no_cycle (hwf : WellFormed cfg) (bus : BitVec 8) :
    ¬TransGen (Leads cfg) bus bus := by
  have hlt : ∀ {bus'}, TransGen (Leads cfg) bus bus' → bus < bus' := by
    intro bus' h
    induction h with
    | single h => exact hwf.lt h.behind
    | tail _ h ih => exact BitVec.lt_trans ih (hwf.lt h.behind)
  exact fun h => BitVec.lt_irrefl bus (hlt h)

/-- Only bus `0` leads to bus `0`. -/
theorem WellFormed.eq_zero (hwf : WellFormed cfg) {bus : BitVec 8}
    (h : ReflTransGen (Leads cfg) bus 0) : bus = 0 := by
  rcases h.cases_tail with h | ⟨bus', _, h⟩
  · exact h.symm
  · exact absurd (hwf.lt h.behind) BitVec.not_lt_zero

theorem WellFormed.forest (hwf : WellFormed cfg) : Forest (busCallees cfg) where
  unique bus bus' bus'' h h' := by
    obtain ⟨p, rfl, _, hp, hsec⟩ := mem_callees_scanPciBus.mp h
    obtain ⟨q, rfl, _, hq, hsec'⟩ := mem_callees_scanPciBus.mp h'
    rw [hwf.unshared p q hp hq (hsec.trans hsec'.symm)]
  nodup bus := by
    -- Two callees are the secondary buses of two different bridges.
    have hdiff : ∀ p q : Bdf, p ≠ q → ∀ x,
        x ∈ (if IsBridge cfg p.bus p.device p.func then [p.secondaryBus cfg] else []) →
        x ∈ (if IsBridge cfg q.bus q.device q.func then [q.secondaryBus cfg] else []) → False := by
      intro p q hne x hp hq
      split at hp
      · split at hq
        · rename_i hbp hbq
          refine hne (hwf.unshared p q hbp hbq ?_)
          exact (List.mem_singleton.mp hp).symm.trans (List.mem_singleton.mp hq)
        · exact absurd hq List.not_mem_nil
      · exact absurd hp List.not_mem_nil
    unfold busCallees scanPciBus
    rw [callees_flatMap, List.nodup_flatMap]
    refine ⟨fun device hdevice => ?_, ?_⟩
    · rw [callees_scanPciDevice, List.nodup_flatMap]
      have hd := (mem_below (by decide)).mp hdevice
      refine ⟨fun func _ => ?_, nodup_looked.pairwise_of_forall_ne fun func hf func' hf' hne => ?_⟩
      · split
        · exact List.nodup_singleton _
        · exact List.nodup_nil
      · refine fun x hx hx' => hdiff ⟨bus, device, func, hd, mem_looked_lt hf⟩
          ⟨bus, device, func', hd, mem_looked_lt hf'⟩ ?_ x hx hx'
        exact fun h => hne (congrArg Bdf.func h)
    · refine (nodup_below (by decide)).pairwise_of_forall_ne fun device hd device' hd' hne => ?_
      intro x hx hx'
      simp only [callees_scanPciDevice, List.mem_flatMap] at hx hx'
      obtain ⟨func, hf, hx⟩ := hx
      obtain ⟨func', hf', hx'⟩ := hx'
      refine hdiff ⟨bus, device, func, (mem_below (by decide)).mp hd, mem_looked_lt hf⟩
        ⟨bus, device', func', (mem_below (by decide)).mp hd', mem_looked_lt hf'⟩ ?_ x hx hx'
      exact fun h => hne (congrArg Bdf.device h)

theorem sum_indicator {V : Type*} [DecidableEq V] (b : V) (vs : List V) :
    (vs.map fun v => if v = b then 1 else 0).sum = vs.count b := by
  induction vs with
  | nil => rfl
  | cons v vs ih =>
    rw [List.map_cons, List.sum_cons, ih, List.count_cons, Nat.add_comm]
    simp

open Classical in
/-- A function that the scan sees is examined once for every start bus that leads to its
bus, and one that it does not see never. -/
theorem count_classRead (hwf : WellFormed cfg) {depth : Nat} {log : List PciEvent}
    (h : startPciEnumeration cfg depth = some log) (p : Bdf) (hp : p.Present cfg) :
    log.count p.classRead =
      if p.Visible cfg then
        (startBuses cfg).countP fun bus => ReflTransGen (Leads cfg) bus p.bus
      else 0 := by
  have hwithin := startPciEnumeration_isSome.mp (Option.isSome_of_eq_some h)
  have heach : ∀ bus ∈ startBuses cfg,
      ((run (scanPciBus cfg) depth bus).getD []).count p.classRead =
        if p.Visible cfg ∧ ReflTransGen (Leads cfg) bus p.bus then 1 else 0 := by
    intro bus hbus
    obtain ⟨l, hl⟩ := Option.isSome_iff_exists.mp ((run_isSome depth bus).mpr (hwithin bus hbus))
    rw [hl, Option.getD_some, run_count _ _ _ _ hl]
    by_cases hv : p.Visible cfg
    · have hterm : ∀ w, (emits (scanPciBus cfg w)).count p.classRead = if w = p.bus then 1 else 0 := by
        intro w
        by_cases hw : w = p.bus
        · rw [if_pos hw, (count_scanPciBus p hp).1 hw.symm hv]
        · rw [if_neg hw, (count_scanPciBus p hp).2.1 (Ne.symm hw)]
      simp only [hterm, sum_indicator]
      have hcount := preorder_count (w := p.bus) hwf.forest (hwithin bus hbus)
      rw [calls_eq_leads] at hcount
      by_cases hr : ReflTransGen (Leads cfg) bus p.bus
      · rw [if_pos ⟨hv, hr⟩]
        exact hcount.1 hr
      · rw [if_neg (fun h => hr h.2)]
        exact hcount.2 hr
    · rw [if_neg (fun h => hv h.1)]
      simp [(count_scanPciBus p hp).2.2 hv]
  have hlog := exec_count _ p.classRead _ log h
  rw [count_startScript, callees_startScript, Nat.zero_add, List.map_congr_left heach] at hlog
  rw [hlog]
  clear hlog heach hwithin h
  split
  · rename_i hv
    induction startBuses cfg with
    | nil => rfl
    | cons bus buses ih =>
      rw [List.map_cons, List.sum_cons, ih, List.countP_cons, Nat.add_comm]
      simp [hv]
  · rename_i hv
    simp [hv]

theorem WellFormed.terminates (hwf : WellFormed cfg) :
    ∃ depth log, startPciEnumeration cfg depth = some log := by
  have hbound : ∀ start ∈ startBuses cfg, ∃ n, Within (busCallees cfg) n start :=
    fun start _ => exists_within_iff_no_cycle.mpr fun bus _ => by
      rw [calls_eq_leads]
      exact hwf.no_cycle bus
  obtain ⟨depth, hdepth⟩ := exists_within_all (startBuses cfg) hbound
  exact ⟨depth, Option.isSome_iff_exists.mp (startPciEnumeration_isSome.mpr hdepth)⟩

/-- When nothing is hidden the scan follows all the bridges. -/
theorem leads_of_reached (hvisible : ∀ p : Bdf, Reached cfg p.bus → p.Present cfg → p.Visible cfg)
    {bus : BitVec 8} (h : Reached cfg bus) : ReflTransGen (Leads cfg) 0 bus := by
  induction h with
  | refl => exact .refl
  | tail hprev hstep ih =>
    obtain ⟨p, rfl, hbridge, hsec⟩ := hstep
    exact ih.tail ⟨p, rfl, hvisible p hprev hbridge.1, hbridge, hsec⟩

theorem behind_of_leads {bus' : BitVec 8} (h : ReflTransGen (Leads cfg) bus bus') :
    ReflTransGen (Behind cfg) bus bus' :=
  ReflTransGen.mono (fun _ _ => Leads.behind) _ _ h

/-- An empty bus leads nowhere. -/
theorem EmptyBus.eq (hempty : EmptyBus cfg bus) {bus' : BitVec 8}
    (h : ReflTransGen (Behind cfg) bus bus') : bus' = bus := by
  rcases h.cases_head with h | ⟨_, ⟨p, hbus, hbridge, _⟩, _⟩
  · exact h.symm
  · exact absurd hbridge.1 (hempty p hbus)

theorem eq_of_countP_eq_one {V : Type*} {P : V → Bool} {vs : List V} (h : vs.countP P = 1)
    {v w : V} (hv : v ∈ vs) (hw : w ∈ vs) (hPv : P v = true) (hPw : P w = true) : v = w := by
  rw [List.countP_eq_length_filter, List.length_eq_one_iff] at h
  obtain ⟨u, hu⟩ := h
  have hmem : ∀ x ∈ vs, P x = true → x = u := by
    intro x hx hPx
    have : x ∈ vs.filter P := List.mem_filter.mpr ⟨hx, hPx⟩
    rwa [hu, List.mem_singleton] at this
  rw [hmem v hv hPv, hmem w hw hPw]

open Classical in
/-- Bus `0` is scanned once for every start bus that is `0`. -/
theorem countP_leads_zero (hwf : WellFormed cfg) :
    ((startBuses cfg).countP fun bus => ReflTransGen (Leads cfg) bus 0) = (startBuses cfg).count 0 := by
  refine List.countP_congr fun bus _ => ?_
  rw [decide_eq_true_iff, beq_iff_eq]
  exact ⟨hwf.eq_zero, fun h => h ▸ .refl⟩

theorem ExaminesOnce.noneHidden (hwf : WellFormed cfg) (h : ExaminesOnce cfg) (p : Bdf)
    (hr : Reached cfg p.bus) (hp : p.Present cfg) : p.Visible cfg := by
  obtain ⟨depth, log, hlog, hone⟩ := h
  by_contra hv
  have hcount := count_classRead hwf hlog p hp
  rw [if_neg hv, hone p hr hp] at hcount
  exact absurd hcount one_ne_zero

/-- With something on bus `0`, bus `0` has to be a start bus once. -/
theorem ExaminesOnce.count_zero (hwf : WellFormed cfg) (h : ExaminesOnce cfg) (p : Bdf)
    (hbus : p.bus = 0) (hp : p.Present cfg) : (startBuses cfg).count 0 = 1 := by
  have hr : Reached cfg p.bus := hbus ▸ .refl
  have hv := h.noneHidden hwf p hr hp
  obtain ⟨depth, log, hlog, hone⟩ := h
  have hcount := count_classRead hwf hlog p hp
  rw [if_pos hv, hone p hr hp, hbus, countP_leads_zero hwf] at hcount
  exact hcount.symm

/-- **Every function is examined once** exactly under `ScansOnce`. -/
theorem examinesOnce_iff (cfg : Cfg) (hwf : WellFormed cfg) : ExaminesOnce cfg ↔ ScansOnce cfg := by
  classical
  constructor
  · intro h
    have hvisible := h.noneHidden hwf
    refine ⟨hvisible, ?_⟩
    by_cases hempty : EmptyBus cfg 0
    · exact Or.inl hempty
    · refine Or.inr ?_
      simp only [EmptyBus, not_forall, not_not] at hempty
      obtain ⟨p₀, hbus₀, hp₀⟩ := hempty
      have hzero := h.count_zero hwf p₀ hbus₀ hp₀
      refine ⟨hzero, ?_⟩
      rintro bus hbus hne hr p rfl hp
      obtain ⟨depth, log, hlog, hone⟩ := h
      have hcount := count_classRead hwf hlog p hp
      rw [if_pos (hvisible p hr hp), hone p hr hp] at hcount
      -- Bus `0` and the bus itself are two start buses that lead to the function.
      have hmem : 0 ∈ startBuses cfg := List.count_pos_iff.mp (by omega)
      exact hne (eq_of_countP_eq_one hcount.symm hbus hmem (by simp [ReflTransGen.refl])
        (by simpa using leads_of_reached hvisible hr))
  · rintro ⟨hvisible, hstart⟩
    obtain ⟨depth, log, hlog⟩ := hwf.terminates
    refine ⟨depth, log, hlog, fun p hr hp => ?_⟩
    rw [count_classRead hwf hlog p hp, if_pos (hvisible p hr hp)]
    rcases hstart with hempty | ⟨hzero, hothers⟩
    · exact absurd hp (hempty p (hempty.eq hr))
    · have hleads := leads_of_reached hvisible hr
      rw [← hzero]
      refine List.countP_congr fun bus hbus => ?_
      rw [decide_eq_true_iff, beq_iff_eq]
      refine ⟨fun hl => ?_, fun h => h ▸ hleads⟩
      by_contra hne
      -- Start buses that lead to one bus are on one path, and below bus `0` they are empty.
      have hcomp := hwf.forest.comparable (v := bus) (u := 0) (w := p.bus)
      rw [calls_eq_leads] at hcomp
      rcases hcomp hl hleads with hback | hdown
      · exact hne (hwf.eq_zero hback)
      · have hempty := hothers bus hbus hne (behind_of_leads hdown)
        exact hempty p (hempty.eq (behind_of_leads hl)) hp

end Count

/-! ### Two machines -/

/-- The value of one register. -/
structure CfgReg where
  place : Bdf
  offset : BitVec 8
  value : BitVec 32

/-- A configuration space with these registers and nothing else in it. -/
def sparse (regs : List CfgReg) : Cfg := fun address =>
  match regs.find? fun r =>
      pciAddress r.place.bus r.place.device r.place.func r.offset = address with
  | some r => r.value
  | none => 0xFFFFFFFF

theorem mem_of_present {regs : List CfgReg} {p : Bdf} (h : p.Present (sparse regs)) :
    ∃ r ∈ regs, r.place = p := by
  cases hfind : regs.find? fun r => pciAddress r.place.bus r.place.device r.place.func r.offset =
      pciAddress p.bus p.device p.func 0x00 with
  | none =>
    refine absurd ?_ h
    unfold vendorId pciRead sparse
    rw [hfind]
    rfl
  | some r =>
    have haddress := List.find?_some hfind
    exact ⟨r, List.mem_of_find?_eq_some hfind, Bdf.eq_of_pciAddress (of_decide_eq_true haddress)⟩

def exampleHost : Bdf := ⟨0, 0, 0, by decide, by decide⟩

def exampleBridge : Bdf := ⟨0, 1, 0, by decide, by decide⟩

def exampleIde : Bdf := ⟨1, 0, 0, by decide, by decide⟩

/-- A host bridge, a bridge to bus `1` and an IDE controller there. -/
def exampleTree : Cfg := sparse
  [⟨exampleHost, 0x00, 0x12378086⟩, ⟨exampleHost, 0x08, 0x06000000⟩, ⟨exampleHost, 0x0C, 0x00000000⟩,
    ⟨exampleBridge, 0x00, 0x24488086⟩, ⟨exampleBridge, 0x08, 0x06040000⟩,
    ⟨exampleBridge, 0x0C, 0x00010000⟩, ⟨exampleBridge, 0x18, 0x00010100⟩,
    ⟨exampleIde, 0x00, 0x70108086⟩, ⟨exampleIde, 0x08, 0x01018000⟩, ⟨exampleIde, 0x0C, 0x00000000⟩]

theorem exampleTree_present {p : Bdf} (h : p.Present exampleTree) :
    p = exampleHost ∨ p = exampleBridge ∨ p = exampleIde := by
  obtain ⟨r, hr, rfl⟩ := mem_of_present h
  fin_cases hr <;> simp

theorem exampleTree_bridge {p : Bdf} (h : p.IsBridge exampleTree) : p = exampleBridge := by
  obtain rfl | rfl | rfl := exampleTree_present h.1
  · exact absurd h.2.2 (by decide)
  · rfl
  · exact absurd h.2.1 (by decide)

theorem examinesOnce_exampleTree : ExaminesOnce exampleTree := by
  refine (examinesOnce_iff exampleTree ⟨?_, ?_⟩).mpr ⟨?_, Or.inr ⟨by decide, ?_⟩⟩
  · intro p hp
    rw [exampleTree_bridge hp]
    decide
  · intro p q hp hq _
    rw [exampleTree_bridge hp, exampleTree_bridge hq]
  · intro p _ hp
    obtain rfl | rfl | rfl := exampleTree_present hp
    · exact ⟨by decide, Or.inl rfl⟩
    · exact ⟨by decide, Or.inl rfl⟩
    · exact ⟨by decide, Or.inl rfl⟩
  · intro bus hbus hne
    have hstart : startBuses exampleTree = [0] := by decide
    rw [hstart, List.mem_singleton] at hbus
    exact absurd hbus hne

def exampleSecond : Bdf := ⟨0, 0, 1, by decide, by decide⟩

/-- A host bridge with two functions. -/
def exampleTwin : Cfg := sparse
  [⟨exampleHost, 0x00, 0x12378086⟩, ⟨exampleHost, 0x08, 0x06000000⟩, ⟨exampleHost, 0x0C, 0x00800000⟩,
    ⟨exampleHost, 0x18, 0x00000000⟩, ⟨exampleSecond, 0x00, 0x12388086⟩,
    ⟨exampleSecond, 0x08, 0x06000000⟩, ⟨exampleSecond, 0x0C, 0x00800000⟩,
    ⟨exampleSecond, 0x18, 0x00000000⟩]

theorem exampleTwin_wellFormed : WellFormed exampleTwin := by
  have hnone : ∀ p : Bdf, ¬p.IsBridge exampleTwin := by
    intro p h
    obtain ⟨r, hr, rfl⟩ := mem_of_present h.1
    have hsub := h.2.2
    fin_cases hr <;> exact absurd hsub (by decide)
  exact ⟨fun p hp => absurd hp (hnone p), fun p _ hp => absurd hp (hnone p)⟩

/-- Bus `0` is scanned for both of them. -/
theorem exampleTwin_not_once : ¬∀ cfg : Cfg, WellFormed cfg → ExaminesOnce cfg := by
  intro h
  have hpresent : vendorId exampleTwin 0 0 0 ≠ 0xFFFF := by decide
  have hzero := (h exampleTwin exampleTwin_wellFormed).count_zero exampleTwin_wellFormed exampleHost
    rfl hpresent
  exact absurd hzero (by decide)

end AncoreOS.Drivers
