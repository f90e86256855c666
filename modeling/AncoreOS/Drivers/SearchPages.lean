import AncoreOS.Drivers.PciScan
import AncoreOS.Drivers.RegisterAccess
import AncoreOS.Mm.VmmTree

/-!
# The pages that the search accesses

`scan_pci_device` maps one page for an AHCI controller and then calls `sata_search`.  The
registers of the controller begin at its base, those of the port `p` at `0x100 + p * 0x80`,
and `search_in_pages_iff` says when all that are accessed lie in that page: the last register
of each implemented port must not be beyond it.

What the search accesses are `PI` and registers of implemented ports (`access_searchPorts`),
and a drive behind a port makes it access `PxCI`, the last one of the port
(`searchPorts_onePort`).
-/

namespace AncoreOS.Drivers

open ByteMemory CallTree AncoreOS.Mm

/-- Whatever is accessed lies in a page that the scan has mapped before. -/
def SearchInPages (bar5 pi : BitVec 32) : Prop :=
  ∀ (cfg : Cfg) (bus device : BitVec 8) (before after : List PciItem),
    scanPciDevice cfg bus device =
      before ++ .emit (.sataSearch (bar5 &&& 0xFFFFFFF0)) :: after →
    ∀ (σ : Type) (M : Mmio σ) (virtToPhys : Word → Word) (heap : Nat → Word → Word) (fuel : Nat)
      (s : Search σ), (s.io.readl M (searchPi (bar5 &&& 0xFFFFFFF0))).1 = pi →
      ∀ a, Accessed a (reached (sataSearch M virtToPhys heap fuel (bar5 &&& 0xFFFFFFF0)
          { s with io := { s.io with log := [] } })).io →
        ∃ virt phys flags, .emit (.mapPage virt phys flags) ∈ before ∧ pageNumber a = pageNumber virt

/-! ### Addresses -/

section Address

variable {base : BitVec 32} {p : Nat}

theorem searchPi_toNat (base : BitVec 32) : (searchPi base).toNat = (base.toNat + 0x0C) % 2 ^ 32 := by
  rw [searchPi, BitVec.toNat_setWidth_of_le (by decide), BitVec.toNat_add]
  rfl

theorem portAddress_toNat (base : BitVec 32) (p : Nat) {o : Nat} (ho : o ≤ 0x38) :
    (searchPortBase base p + BitVec.ofNat 64 o).toNat =
      (base.toNat + 0x100 + 0x80 * p) % 2 ^ 32 + o := by
  have hbase : (searchPortBase base p).toNat = (base.toNat + 0x100 + 0x80 * p) % 2 ^ 32 := by
    rw [searchPortBase, BitVec.toNat_setWidth_of_le (by decide), BitVec.toNat_add, BitVec.toNat_add,
      BitVec.toNat_ofNat, show (0x100 : BitVec 32).toNat = 0x100 from rfl]
    omega
  rw [BitVec.toNat_add, hbase, BitVec.toNat_ofNat]
  omega

theorem portAddress_ne (base : BitVec 32) {q : Nat} (hp : p < 32) (hq : q < 32) {o o' : Nat}
    (ho : o ≤ 0x38) (ho' : o' ≤ 0x38) (hne : 0x80 * p + o ≠ 0x80 * q + o') :
    searchPortBase base p + BitVec.ofNat 64 o ≠ searchPortBase base q + BitVec.ofNat 64 o' := by
  intro h
  have hlt := base.isLt
  have heq := congrArg BitVec.toNat h
  rw [portAddress_toNat base p ho, portAddress_toNat base q ho'] at heq
  omega

theorem portAddress_ne_pi (base : BitVec 32) (hp : p < 32) {o : Nat} (ho : o ≤ 0x38) :
    searchPortBase base p + BitVec.ofNat 64 o ≠ searchPi base := by
  intro h
  have hlt := base.isLt
  have heq := congrArg BitVec.toNat h
  rw [portAddress_toNat base p ho, searchPi_toNat] at heq
  omega

theorem ahciBase_mod (bar5 : BitVec 32) : (bar5 &&& 0xFFFFFFF0).toNat % 16 = 0 := by
  have hlow : (bar5 &&& 0xFFFFFFF0) &&& 0xF = 0 := by
    rw [BitVec.and_assoc]
    exact BitVec.and_zero
  have hnat := congrArg BitVec.toNat hlow
  rwa [BitVec.toNat_and, show (0xF : BitVec 32).toNat = 2 ^ 4 - 1 from rfl,
    Nat.and_two_pow_sub_one_eq_mod] at hnat

theorem searchPi_page (hbase : base.toNat % 16 = 0) :
    pageNumber (searchPi base) = pageNumber (base.setWidth 64) := by
  have hlt := base.isLt
  apply BitVec.eq_of_toNat_eq
  rw [pageNumber_toNat, pageNumber_toNat, searchPi_toNat, BitVec.toNat_setWidth_of_le (by decide)]
  omega

/-- The registers of a port lie in the first page when its last one does. -/
theorem portRegister_page (hfit : base.toNat % 4096 + 0x100 + 0x80 * p + 0x38 < 4096)
    {a : Word} (ha : PortRegister (searchPortBase base p) a) :
    pageNumber a = pageNumber (base.setWidth 64) := by
  obtain ⟨o, ho, rfl⟩ := ha
  have hlt := base.isLt
  apply BitVec.eq_of_toNat_eq
  rw [pageNumber_toNat, pageNumber_toNat, portAddress_toNat base p ho,
    BitVec.toNat_setWidth_of_le (by decide)]
  omega

theorem fits_of_ci_page (hp : p < 32)
    (h : pageNumber (searchPortBase base p + portCi) = pageNumber (base.setWidth 64)) :
    base.toNat % 4096 + 0x100 + 0x80 * p + 0x38 < 4096 := by
  have hlt := base.isLt
  have heq := congrArg BitVec.toNat h
  rw [pageNumber_toNat, pageNumber_toNat, show portCi = BitVec.ofNat 64 0x38 from rfl,
    portAddress_toNat base p le_rfl, BitVec.toNat_setWidth_of_le (by decide)] at heq
  omega

end Address

/-! ### What the search accesses -/

section Access

variable {σ : Type*} {S : Word → Prop} (M : Mmio σ) (virtToPhys : Word → Word)
  (heap : Nat → Word → Word) (fuel : Nat) {io₀ : Io σ}

theorem access_searchSata {portBase : Word} (hS : ∀ a, PortRegister portBase a → S a) {s : Search σ}
    (h : AccessOnly S io₀ s.io) :
    Ends (fun s' => AccessOnly S io₀ s'.io) (fun s' => AccessOnly S io₀ s'.io)
      (searchSata M heap fuel portBase s) := by
  unfold searchSata
  refine Ends.bind (Ends.after (AccessOnly.identifyFrom hS fuel _ _ h) _) fun s' h' => ?_
  exact Ends.map (Ends.after (AccessOnly.readSectorFrom hS fuel _ _ _ _ h') _) fun s' h' => h'

theorem access_searchAtapi {portBase : Word} (hS : ∀ a, PortRegister portBase a → S a) {s : Search σ}
    (h : AccessOnly S io₀ s.io) :
    Ends (fun s' => AccessOnly S io₀ s'.io) (fun s' => AccessOnly S io₀ s'.io)
      (searchAtapi M virtToPhys heap portBase s) := by
  unfold searchAtapi
  refine Ends.map (Ends.after (P := AccessOnly S io₀) ?_ _) fun s' h' => h'
  exact AccessOnly.readSectorSatapi hS virtToPhys _ _ _ _ h

theorem access_searchPort {mmioBase pi : BitVec 32} {p : Nat}
    (hS : pi &&& (1 <<< p) ≠ 0 → ∀ a, PortRegister (searchPortBase mmioBase p) a → S a) {s : Search σ}
    (h : AccessOnly S io₀ s.io) :
    Ends (fun s' => AccessOnly S io₀ s'.io) (fun s' => AccessOnly S io₀ s'.io)
      (searchPort M virtToPhys heap fuel mmioBase pi p s) := by
  unfold searchPort
  split
  · exact h
  · have hport := hS ‹_›
    have hssts := h.readl (M := M) (hport _ ⟨0x28, by decide, rfl⟩)
    have hsig := hssts.readl (M := M) (hport _ ⟨0x24, by decide, rfl⟩)
    dsimp only
    split
    · exact hssts
    split
    · exact access_searchSata M heap fuel hport hsig
    split
    · exact access_searchAtapi M virtToPhys heap hport hsig
    split
    · exact hsig
    split
    · exact hsig
    · exact hsig

theorem access_searchPorts {mmioBase pi : BitVec 32} (ports : List Nat)
    (hS : ∀ p ∈ ports, pi &&& (1 <<< p) ≠ 0 →
      ∀ a, PortRegister (searchPortBase mmioBase p) a → S a) {s : Search σ}
    (h : AccessOnly S io₀ s.io) :
    Ends (fun s' => AccessOnly S io₀ s'.io) (fun s' => AccessOnly S io₀ s'.io)
      (searchPorts M virtToPhys heap fuel mmioBase pi ports s) :=
  ends_searchPorts M virtToPhys heap fuel mmioBase pi ports s
    (fun p hp _ hs => access_searchPort M virtToPhys heap fuel (hS p hp) hs) h

theorem accessed_searchPorts {mmioBase pi : BitVec 32} (ports : List Nat) {a : Word} {s : Search σ}
    (h : Accessed a s.io) : Ends (fun s' => Accessed a s'.io) (fun s' => Accessed a s'.io)
      (searchPorts M virtToPhys heap fuel mmioBase pi ports s) := by
  refine Ends.mono (P := fun s' => AccessOnly (fun _ => True) s.io s'.io)
    (Q := fun s' => AccessOnly (fun _ => True) s.io s'.io) ?_ (fun s' h' => h'.accessed h)
    fun s' h' => h'.accessed h
  exact access_searchPorts M virtToPhys heap fuel ports (fun _ _ _ _ _ => trivial) (.of_log_eq rfl)

/-- The identification of an idle port polls `PxCI`. -/
theorem searchSata_ci {p : Word} (hcmd : ∀ io : Io σ, (io.readl M (p + portCmd)).1 = 0)
    (hci : ∀ io : Io σ, (io.readl M (p + portCi)).1 = 0) (s : Search σ) :
    Ends (fun s' => Accessed (p + portCi) s'.io) (fun s' => Accessed (p + portCi) s'.io)
      (searchSata M heap (fuel + 1) p s) := by
  obtain ⟨io₀, hidentify⟩ := sataAhciIdentifyFrom_idle hcmd hci fuel
    (heap (s.mallocs + 1) (BitVec.ofNat 64 ahciPortMemSize)) (heap s.mallocs 512) s.io
  unfold searchSata
  dsimp only [Search.malloc]
  rw [hidentify]
  refine Ends.bind (Ends.after (P := Accessed (p + portCi)) ?_ _) fun s' h' => ?_
  · exact accessed_readl
  refine Ends.map (Ends.after (P := Accessed (p + portCi)) ?_ _) fun s' h' => h'
  exact Ends.accessed (S := fun _ => True) (AccessOnly.readSectorFrom (fun _ _ => trivial) _ _ _ _ _
    (.of_log_eq rfl)) h'

end Access

/-! ### A drive behind one port -/

section OnePort

variable {base pi : BitVec 32} {p : Nat} {f : Mem → Mem}

theorem onePort_pi (io : Io Unit) : (io.readl (onePort base pi p f) (searchPi base)).1 = pi :=
  if_pos rfl

variable (hp : p < 32)
include hp

theorem onePort_ssts (io : Io Unit) :
    (io.readl (onePort base pi p f) (searchPortBase base p + portSsts)).1 = 0x103 :=
  (if_neg (portAddress_ne_pi base hp (by decide))).trans (if_pos rfl)

theorem onePort_sig (io : Io Unit) :
    (io.readl (onePort base pi p f) (searchPortBase base p + portSig)).1 = 0x101 := by
  refine (if_neg (portAddress_ne_pi base hp (by decide))).trans ((if_neg ?_).trans (if_pos rfl))
  show searchPortBase base p + BitVec.ofNat 64 0x24 ≠ searchPortBase base p + BitVec.ofNat 64 0x28
  exact portAddress_ne base hp hp (by decide) (by decide) (by omega)

theorem onePort_other {q : Nat} (hq : q < 32) {o : Nat} (ho : o ≤ 0x38)
    (hother : 0x80 * q + o ≠ 0x80 * p + 0x28 ∧ 0x80 * q + o ≠ 0x80 * p + 0x24) (io : Io Unit) :
    (io.readl (onePort base pi p f) (searchPortBase base q + BitVec.ofNat 64 o)).1 = 0 := by
  refine (if_neg (portAddress_ne_pi base hq ho)).trans ((if_neg ?_).trans (if_neg ?_))
  · exact portAddress_ne base hq hp ho (by decide) hother.1
  · exact portAddress_ne base hq hp ho (by decide) hother.2

variable (virtToPhys : Word → Word) (heap : Nat → Word → Word) (fuel : Nat)

/-- Nothing is found behind another port. -/
theorem searchPort_onePort {q : Nat} (hq : q < 32) (hne : q ≠ p) (s : Search Unit) :
    ∃ s', searchPort (onePort base pi p f) virtToPhys heap fuel base pi q s = .ok s' := by
  have hssts : (s.io.readl (onePort base pi p f) (searchPortBase base q + BitVec.ofNat 64 0x28)).1 = 0 :=
    onePort_other hp hq (by decide) (by omega) s.io
  unfold searchPort
  split
  · exact ⟨s, rfl⟩
  · dsimp only
    rw [if_pos]
    · exact ⟨_, rfl⟩
    · left
      rw [show portSsts = BitVec.ofNat 64 0x28 from rfl, hssts]
      decide

/-- The round of the port leads to its last register. -/
theorem searchPorts_onePort (hpi : pi &&& (1 <<< p) ≠ 0) : ∀ (ports : List Nat) (s : Search Unit),
    (∀ q ∈ ports, q < 32) → p ∈ ports →
    Ends (fun s' => Accessed (searchPortBase base p + portCi) s'.io)
      (fun s' => Accessed (searchPortBase base p + portCi) s'.io)
      (searchPorts (onePort base pi p f) virtToPhys heap (fuel + 1) base pi ports s) := by
  intro ports
  induction ports with
  | nil => exact fun s _ h => absurd h List.not_mem_nil
  | cons q ports ih =>
    intro s hports hmem
    by_cases hq : q = p
    · subst hq
      obtain ⟨s', _, hbranch⟩ := searchPort_sata (M := onePort base pi q f) virtToPhys heap (fuel + 1)
        base hpi (onePort_ssts hp) (onePort_sig hp) s
      rw [searchPorts, hbranch]
      refine Ends.bind (searchSata_ci _ heap fuel ?_ ?_ s') fun s'' h => ?_
      · exact onePort_other hp hp (o := 0x18) (by decide) (by omega)
      · exact onePort_other hp hp (o := 0x38) (by decide) (by omega)
      · exact accessed_searchPorts _ virtToPhys heap (fuel + 1) ports h
    · obtain ⟨s', hskip⟩ : ∃ s', searchPort (onePort base pi p f) virtToPhys heap (fuel + 1) base pi q
          s = .ok s' :=
        searchPort_onePort hp virtToPhys heap (fuel + 1) (hports q List.mem_cons_self) hq s
      rw [searchPorts, hskip]
      refine ih s' (fun r hr => hports r (List.mem_cons_of_mem q hr)) ?_
      exact (List.mem_cons.mp hmem).resolve_left fun h => hq h.symm

end OnePort

/-! ### The scan -/

/-- Each search comes after the mapping of the page at its base. -/
def MapsFirst (items : List PciItem) : Prop :=
  ∀ (before after : List PciItem) (base : BitVec 32),
    items = before ++ .emit (.sataSearch base) :: after →
    .emit (.mapPage (base.setWidth 64) (base.setWidth 64) ahciPageFlags) ∈ before

section Scan

variable {l₁ l₂ : List PciItem}

theorem MapsFirst.of_not_mem (h : ∀ base, .emit (.sataSearch base) ∉ l₁) : MapsFirst l₁ := by
  rintro before after base rfl
  exact absurd (List.mem_append_right before List.mem_cons_self) (h base)

theorem MapsFirst.append (h₁ : MapsFirst l₁) (h₂ : MapsFirst l₂) : MapsFirst (l₁ ++ l₂) := by
  intro before after base heq
  rcases List.append_eq_append_iff.mp heq with ⟨rest, rfl, hrest⟩ | ⟨rest, rfl, hrest⟩
  · exact List.mem_append_right l₁ (h₂ rest after base hrest)
  · cases rest with
    | nil => exact absurd (h₂ [] after base hrest.symm) List.not_mem_nil
    | cons i rest =>
      obtain ⟨rfl, -⟩ := List.cons.inj hrest
      exact h₁ before rest base rfl

theorem MapsFirst.cons {i : PciItem} (hi : ∀ base, i ≠ .emit (.sataSearch base)) (h : MapsFirst l₁) :
    MapsFirst (i :: l₁) := by
  have hone : MapsFirst [i] := .of_not_mem fun base hmem => hi base (List.mem_singleton.mp hmem).symm
  exact hone.append h

/-- A search right after the mapping of its page. -/
theorem MapsFirst.search (base : BitVec 32) (h : MapsFirst l₁) :
    MapsFirst (.emit (.mapPage (base.setWidth 64) (base.setWidth 64) ahciPageFlags) ::
      .emit (.sataSearch base) :: l₁) := by
  intro before after base' heq
  rcases before with _ | ⟨i, _ | ⟨i', before⟩⟩
  · simp at heq
  · simp only [List.cons_append, List.nil_append, List.cons.injEq, Item.emit.injEq,
      PciEvent.sataSearch.injEq] at heq
    rw [← heq.1, heq.2.1]
    exact List.mem_cons_self
  · obtain ⟨_, hrest⟩ := List.cons.inj heq
    obtain ⟨_, hrest⟩ := List.cons.inj hrest
    exact List.mem_cons_of_mem i (List.mem_cons_of_mem i' (h before after base' hrest))

theorem mapsFirst_flatMap {β : Type*} {g : β → List PciItem} (h : ∀ x, MapsFirst (g x)) :
    ∀ xs : List β, MapsFirst (xs.flatMap g) := by
  intro xs
  induction xs with
  | nil => exact .of_not_mem fun base => List.not_mem_nil
  | cons x xs ih =>
    rw [List.flatMap_cons]
    exact (h x).append ih

variable (cfg : Cfg) (bus device func : BitVec 8)

theorem mapsFirst_storageController :
    MapsFirst ((storageController cfg bus device func).map .emit) := by
  unfold storageController
  dsimp only
  split
  · exact .of_not_mem (by simp)
  split
  · exact .of_not_mem (by simp)
  split
  · split
    · refine .cons (by simp) (.cons (by simp) (.cons (by simp) (.search _ ?_)))
      exact .of_not_mem (by simp)
    · exact .of_not_mem (by simp)
  · exact .of_not_mem (by simp)

theorem mapsFirst_scanPciFunction : MapsFirst (scanPciFunction cfg bus device func) := by
  unfold scanPciFunction
  refine .cons (by simp) ?_
  split
  · exact .of_not_mem (by simp)
  refine .cons (by simp) ?_
  split
  · exact mapsFirst_storageController cfg bus device func
  split
  · unfold usbController
    refine .of_not_mem fun base => ?_
    dsimp only
    (repeat' split) <;> simp
  split
  · exact .of_not_mem (by simp)
  · exact .of_not_mem (by simp)

theorem mapsFirst_scanPciDevice : MapsFirst (scanPciDevice cfg bus device) := by
  unfold scanPciDevice
  refine .cons (by simp) ?_
  split
  · exact .of_not_mem (by simp)
  · exact .cons (by simp) (mapsFirst_flatMap (mapsFirst_scanPciFunction cfg bus device) _)

end Scan

/-- One function, which is an AHCI controller. -/
def oneController (bar5 : BitVec 32) : Cfg := fun address =>
  if address = pciAddress 0 0 0 0x08 then 0x01060100
  else if address = pciAddress 0 0 0 0x24 then bar5
  else 0

/-- The scan of it up to the search. -/
def beforeSearch (bar5 : BitVec 32) : List PciItem :=
  let base := bar5 &&& 0xFFFFFFF0
  [.emit (.read 0 0 0 0x00), .emit (.read 0 0 0 0x0C), .emit (.read 0 0 0 0x00),
    .emit (.read 0 0 0 0x08), .emit (.read 0 0 0 0x24), .emit (.ahciBase base), .emit (.pidRn 7),
    .emit (.mapPage (base.setWidth 64) (base.setWidth 64) ahciPageFlags)]

theorem scan_oneController (bar5 : BitVec 32) :
    scanPciDevice (oneController bar5) 0 0 =
      beforeSearch bar5 ++ .emit (.sataSearch (bar5 &&& 0xFFFFFFF0)) ::
        [.emit (.controller .sataAhci 0 0 0 0 0)] := by
  have hid : pciRead (oneController bar5) 0 0 0 0x00 = 0 := rfl
  have hread : pciRead (oneController bar5) 0 0 0 0x08 = 0x01060100 := rfl
  have hheader : pciRead (oneController bar5) 0 0 0 0x0C = 0 := rfl
  have hbar : pciRead (oneController bar5) 0 0 0 0x24 = bar5 := rfl
  have hvendor : vendorId (oneController bar5) 0 0 0 = 0 := by
    rw [vendorId, hid]
    rfl
  have hdevice : deviceId (oneController bar5) 0 0 0 = 0 := by
    rw [deviceId, hid]
    rfl
  have hclass : classCode (oneController bar5) 0 0 0 = 0x01 := by
    rw [classCode, hread]
    rfl
  have hsub : subclass (oneController bar5) 0 0 0 = 0x06 := by
    rw [subclass, hread]
    rfl
  have hprog : progIf (oneController bar5) 0 0 0 = 0x01 := by
    rw [progIf, hread]
    rfl
  have hbelow : below (funcLimit (oneController bar5) 0 0) = [0] := by
    rw [funcLimit, headerType, hheader]
    rfl
  rw [scanPciDevice, hbelow, hvendor, if_neg (by decide), List.flatMap_singleton, scanPciFunction, hvendor,
    if_neg (by decide), hclass, if_pos rfl, storageController, hsub, if_neg (by decide),
    if_neg (by decide), if_pos rfl, hprog, if_pos rfl, hbar, hvendor, hdevice]
  rfl

/-! ### The condition -/

/-- The last register of a port that is implemented has to lie in the first page. -/
theorem fits_of_searchInPages {bar5 pi : BitVec 32} (h : SearchInPages bar5 pi) {p : Nat}
    (hp : p < 32) (hpi : pi &&& (1 <<< p) ≠ 0) :
    (bar5 &&& 0xFFFFFFF0).toNat % 4096 + 0x100 + 0x80 * p + 0x38 < 4096 := by
  have hmapped := h (oneController bar5) 0 0 _ _ (scan_oneController bar5) Unit
    (onePort (bar5 &&& 0xFFFFFFF0) pi p id) (fun x => x) exampleHeap 1 exampleSearch (onePort_pi _)
    (searchPortBase (bar5 &&& 0xFFFFFFF0) p + portCi)
  obtain ⟨virt, phys, flags, hmem, hpage⟩ := hmapped <| by
    refine Ends.reached (P := fun s' => Accessed _ s'.io) ?_
    unfold sataSearch
    dsimp only
    rw [onePort_pi]
    exact searchPorts_onePort hp _ _ 0 hpi (List.range 32) _ (fun q hq => List.mem_range.mp hq)
      (List.mem_range.mpr hp)
  have hvirt : virt = (bar5 &&& 0xFFFFFFF0).setWidth 64 := by
    simp only [beforeSearch, List.mem_cons, Item.emit.injEq, PciEvent.mapPage.injEq, reduceCtorEq,
      false_or, List.not_mem_nil, or_false] at hmem
    exact hmem.1
  rw [hvirt] at hpage
  exact fits_of_ci_page hp hpage

/-- **When the search stays in the page that was mapped.** -/
theorem search_in_pages_iff (bar5 pi : BitVec 32) :
    SearchInPages bar5 pi ↔ ∀ p < 32, pi &&& (1 <<< p) ≠ 0 →
      (bar5 &&& 0xFFFFFFF0).toNat % 4096 + 0x100 + 0x80 * p + 0x38 < 4096 := by
  constructor
  · exact fun h p hp hpi => fits_of_searchInPages h hp hpi
  · intro hfit cfg bus device before after hscan σ M virtToPhys heap fuel s hpi a ha
    let S : Word → Prop := fun a =>
      pageNumber a = pageNumber ((bar5 &&& 0xFFFFFFF0).setWidth 64)
    have haccess : AccessOnly S { s.io with log := [] }
        (reached (sataSearch M virtToPhys heap fuel (bar5 &&& 0xFFFFFFF0)
          { s with io := { s.io with log := [] } })).io := by
      refine Ends.reached (P := fun s' => AccessOnly S _ s'.io) ?_
      refine access_searchPorts M virtToPhys heap fuel (List.range 32) ?_ ?_
      · intro p hp hbit a ha
        have hset : pi &&& (1 <<< p) ≠ 0 := hpi ▸ hbit
        exact portRegister_page (hfit p (List.mem_range.mp hp) hset) ha
      · exact (AccessOnly.of_log_eq rfl).readl (searchPi_page (ahciBase_mod bar5))
    refine ⟨_, _, _, mapsFirst_scanPciDevice cfg bus device before after _ hscan, ?_⟩
    exact haccess.of_accessed rfl ha

/-- A page-aligned controller with 32 ports: the last two have registers in the next page. -/
theorem examplePorts_not_in_pages : ¬SearchInPages 0xFEBF0000 0xFFFFFFFF := fun h =>
  absurd (fits_of_searchInPages h (p := 31) (by decide) (by decide)) (by decide)

end AncoreOS.Drivers
