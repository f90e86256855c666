import AncoreOS.Drivers.Ehci
import AncoreOS.Library.Records
import Mathlib.Order.SuccPred.Archimedean

/-!
# The descriptors of a configuration

`find_mass_storage_device` walks over the descriptors behind the configuration descriptor and
keeps what it needs of them in `out_dev`.  `descriptors` are the places where the walk looks, and
`MsdSources` says of each field of `out_dev` at which descriptor it was set last
(`parseDescriptors_eq`).

The flag `found_msd` is never reset, so that the endpoints of a later interface replace the ones
of the mass-storage interface, and the walk does not ask for endpoints at all
(`msd_attached_iff`).  What it reads stays inside the page, whatever the descriptors are
(`configLoop_eq`).
-/

namespace AncoreOS.Drivers

/-- `total_len`. -/
def configLength (wTotalLength : BitVec 16) : Nat :=
  (if wTotalLength > 1024 then 1024 else wTotalLength).toNat

theorem configLength_le (wTotalLength : BitVec 16) : configLength wTotalLength ≤ 1024 := by
  unfold configLength
  split
  · exact le_rfl
  · rename_i h
    exact not_lt.mp h

/-! ### Descriptors -/

section Descriptors

variable (buf : Nat → BitVec 8) (o : Nat)

/-- `usb_interface_descriptor_t`. -/
def IsInterface : Prop := buf (o + 1) = 0x04 ∧ 9 ≤ buf o

def IsMassStorage : Prop :=
  IsInterface buf o ∧ buf (o + 5) = usbClassMassStorage ∧ buf (o + 6) = usbSubclassScsi ∧
    buf (o + 7) = usbProtocolBulkOnly

/-- `usb_endpoint_descriptor_t`. -/
def IsEndpoint : Prop := buf (o + 1) = 0x05 ∧ 7 ≤ buf o

def IsBulk : Prop := IsEndpoint buf o ∧ buf (o + 3) &&& 0x03 = 0x02

def IsBulkIn : Prop := IsBulk buf o ∧ buf (o + 2) &&& 0x80 ≠ 0

def IsBulkOut : Prop := IsBulk buf o ∧ buf (o + 2) &&& 0x80 = 0

instance : Decidable (IsInterface buf o) := inferInstanceAs (Decidable (_ ∧ _))
instance : Decidable (IsMassStorage buf o) := inferInstanceAs (Decidable (_ ∧ _))
instance : Decidable (IsEndpoint buf o) := inferInstanceAs (Decidable (_ ∧ _))
instance : Decidable (IsBulk buf o) := inferInstanceAs (Decidable (_ ∧ _))
instance : Decidable (IsBulkIn buf o) := inferInstanceAs (Decidable (_ ∧ _))
instance : Decidable (IsBulkOut buf o) := inferInstanceAs (Decidable (_ ∧ _))

def endpointAt : UsbEndpoint := ⟨buf (o + 2), buf (o + 5) ++ buf (o + 4), buf (o + 3)⟩

variable {buf o}

theorem IsInterface.not_endpoint (h : IsInterface buf o) : ¬IsEndpoint buf o := by
  rintro ⟨htype, -⟩
  rw [h.1] at htype
  exact absurd htype (by decide)

theorem IsMassStorage.not_bulk (h : IsMassStorage buf o) : ¬IsBulk buf o := fun hbulk =>
  h.1.not_endpoint hbulk.1

theorem IsBulk.in_or_out (h : IsBulk buf o) : IsBulkIn buf o ∨ IsBulkOut buf o := by
  by_cases hdir : buf (o + 2) &&& 0x80 = 0
  · exact Or.inr ⟨h, hdir⟩
  · exact Or.inl ⟨h, hdir⟩

end Descriptors

/-- Where the walk looks for descriptors. -/
def descriptors (buf : Nat → BitVec 8) (last : Nat) : List Nat :=
  Records.offsets (fun i => (buf i).toNat) 2 last last 9

/-! ### Where the device comes from -/

/-- The descriptors at which the fields of `out_dev` were set last. -/
structure MsdSources where
  iface : Option Nat
  bulkIn : Option Nat
  bulkOut : Option Nat
  deriving DecidableEq

namespace MsdSources

def empty : MsdSources := ⟨none, none, none⟩

section Step

variable (buf : Nat → BitVec 8)

/-- One descriptor. -/
def step (src : MsdSources) (o : Nat) : MsdSources where
  iface := if IsMassStorage buf o then some o else src.iface
  bulkIn := if src.iface.isSome ∧ IsBulkIn buf o then some o else src.bulkIn
  bulkOut := if src.iface.isSome ∧ IsBulkOut buf o then some o else src.bulkOut

/-- The device, when it was `dev` before the walk. -/
def device (src : MsdSources) (dev : UsbDevice) : UsbDevice where
  address := dev.address
  configValue := dev.configValue
  bulkIn := src.bulkIn.elim dev.bulkIn (endpointAt buf)
  bulkOut := src.bulkOut.elim dev.bulkOut (endpointAt buf)
  ifaceNumber := src.iface.elim dev.ifaceNumber fun i => buf (i + 2)

variable {buf}

theorem step_massStorage {src : MsdSources} {o : Nat} (h : IsMassStorage buf o) :
    src.step buf o = { src with iface := some o } := by
  have hin : ¬(src.iface.isSome ∧ IsBulkIn buf o) := fun hbulk => h.not_bulk hbulk.2.1
  have hout : ¬(src.iface.isSome ∧ IsBulkOut buf o) := fun hbulk => h.not_bulk hbulk.2.1
  rw [step, if_pos h, if_neg hin, if_neg hout]

theorem step_of_not_bulk {src : MsdSources} {o : Nat} (h : ¬IsMassStorage buf o)
    (hbulk : ¬(src.iface.isSome ∧ IsBulk buf o)) : src.step buf o = src := by
  have hin : ¬(src.iface.isSome ∧ IsBulkIn buf o) := fun hin => hbulk ⟨hin.1, hin.2.1⟩
  have hout : ¬(src.iface.isSome ∧ IsBulkOut buf o) := fun hout => hbulk ⟨hout.1, hout.2.1⟩
  rw [step, if_neg h, if_neg hin, if_neg hout]

theorem step_bulkIn {src : MsdSources} {o : Nat} (hsome : src.iface.isSome) (h : IsBulkIn buf o) :
    src.step buf o = { src with bulkIn := some o } := by
  have hmsd : ¬IsMassStorage buf o := fun hmsd => hmsd.not_bulk h.1
  have hout : ¬(src.iface.isSome ∧ IsBulkOut buf o) := fun hout => h.2 hout.2.2
  rw [step, if_neg hmsd, if_pos ⟨hsome, h⟩, if_neg hout]

theorem step_bulkOut {src : MsdSources} {o : Nat} (hsome : src.iface.isSome) (h : IsBulkOut buf o) :
    src.step buf o = { src with bulkOut := some o } := by
  have hmsd : ¬IsMassStorage buf o := fun hmsd => hmsd.not_bulk h.1
  have hin : ¬(src.iface.isSome ∧ IsBulkIn buf o) := fun hin => hin.2.2 h.2
  rw [step, if_neg hmsd, if_neg hin, if_pos ⟨hsome, h⟩]

/-- `parseDescriptor` sets the fields of the device at the descriptors that the sources name. -/
theorem parseDescriptor_step (src : MsdSources) (dev : UsbDevice) (o : Nat) :
    parseDescriptor (fun k => buf (o + k)) src.iface.isSome (src.device buf dev) =
      ((src.step buf o).iface.isSome, (src.step buf o).device buf dev) := by
  unfold parseDescriptor
  by_cases hiface : IsInterface buf o
  · refine (if_pos hiface).trans ?_
    by_cases hmsd : IsMassStorage buf o
    · refine (if_pos hmsd.2).trans ?_
      rw [step_massStorage hmsd]
      rfl
    · refine (if_neg fun h => hmsd ⟨hiface, h⟩).trans ?_
      rw [step_of_not_bulk hmsd fun h => hiface.not_endpoint h.2.1]
  · have hmsd : ¬IsMassStorage buf o := fun h => hiface h.1
    refine (if_neg hiface).trans ?_
    by_cases hep : IsEndpoint buf o
    · refine (if_pos hep).trans ?_
      by_cases hbulk : src.iface.isSome ∧ IsBulk buf o
      · refine (if_pos ⟨hbulk.1, hbulk.2.2⟩).trans ?_
        obtain hin | hout := hbulk.2.in_or_out
        · rw [step_bulkIn hbulk.1 hin]
          exact congrArg (Prod.mk _) (if_pos hin.2)
        · rw [step_bulkOut hbulk.1 hout]
          exact congrArg (Prod.mk _) (if_neg (not_not.mpr hout.2))
      · refine (if_neg fun h => hbulk ⟨h.1, hep, h.2⟩).trans ?_
        rw [step_of_not_bulk hmsd hbulk]
    · refine (if_neg hep).trans ?_
      rw [step_of_not_bulk hmsd fun h => hep h.2.1]

end Step

end MsdSources

/-- The sources of the device after the walk. -/
def msdSources (buf : Nat → BitVec 8) (last : Nat) : MsdSources :=
  (descriptors buf last).foldl (MsdSources.step buf) MsdSources.empty

section Walk

variable {buf : Nat → BitVec 8} {last : Nat}

theorem parseDescriptors_foldl (src : MsdSources) (dev : UsbDevice) (n i : Nat) :
    parseDescriptors buf last n i src.iface.isSome (src.device buf dev) =
      (((Records.offsets (fun i => (buf i).toNat) 2 last n i).foldl (MsdSources.step buf)
          src).iface.isSome,
        ((Records.offsets (fun i => (buf i).toNat) 2 last n i).foldl (MsdSources.step buf)
          src).device buf dev) := by
  induction n generalizing src i with
  | zero => rfl
  | succ n ih =>
    by_cases hstop : last ≤ i ∨ (buf i).toNat < 2
    · rw [Records.offsets_of_stop hstop]
      exact if_pos hstop
    · rw [Records.offsets_succ hstop]
      refine (if_neg hstop).trans ?_
      rw [src.parseDescriptor_step dev i]
      exact ih (src.step buf i) (i + (buf i).toNat)

/-- **The device after the walk is the one that its sources describe.** -/
theorem parseDescriptors_eq (dev : UsbDevice) : parseDescriptors buf last last 9 false dev =
    ((msdSources buf last).iface.isSome, (msdSources buf last).device buf dev) :=
  parseDescriptors_foldl MsdSources.empty dev last 9

end Walk

/-! ### The last descriptors -/

section Last

variable {buf : Nat → BitVec 8} {recs : List Nat} {n j : Nat}

variable (buf recs) in
/-- A mass-storage interface comes before this place. -/
def AfterMassStorage (o : Nat) : Prop := ∃ i ∈ recs, i < o ∧ IsMassStorage buf i

theorem afterMassStorage_concat {o : Nat} (ho : o ≤ n) :
    AfterMassStorage buf (recs ++ [n]) o ↔ AfterMassStorage buf recs o := by
  constructor
  · rintro ⟨i, hi, hlt, hmsd⟩
    obtain hi | hi := List.mem_append.mp hi
    · exact ⟨i, hi, hlt, hmsd⟩
    · obtain rfl := List.mem_singleton.mp hi
      exact absurd hlt (not_lt.mpr ho)
  · rintro ⟨i, hi, h⟩
    exact ⟨i, List.mem_append_left _ hi, h⟩

theorem le_of_mem_concat {o : Nat} (hrecs : ∀ o ∈ recs, o < n) (ho : o ∈ recs ++ [n]) : o ≤ n := by
  obtain ho | ho := List.mem_append.mp ho
  · exact (hrecs o ho).le
  · exact (List.mem_singleton.mp ho).le

/-- The last endpoint with a property behind a mass-storage interface, step by step. -/
theorem latest_after {P : Nat → Prop} {found : Prop} [Decidable (found ∧ P n)] {x : Option Nat}
    (hrecs : ∀ o ∈ recs, o < n) (hfound : found ↔ ∃ i ∈ recs, IsMassStorage buf i)
    (hx : x = some j ↔ IsGreatest {o | o ∈ recs ∧ P o ∧ AfterMassStorage buf recs o} j) :
    (if found ∧ P n then some n else x) = some j ↔
      IsGreatest {o | o ∈ recs ++ [n] ∧ P o ∧ AfterMassStorage buf (recs ++ [n]) o} j := by
  have hset : {o | o ∈ recs ++ [n] ∧ P o ∧ AfterMassStorage buf (recs ++ [n]) o} =
      {o | o ∈ recs ++ [n] ∧ P o ∧ AfterMassStorage buf recs o} := by
    ext o
    exact and_congr_right fun ho =>
      and_congr_right fun _ => afterMassStorage_concat (le_of_mem_concat hrecs ho)
  have hafter : found ↔ AfterMassStorage buf recs n := by
    rw [hfound]
    exact ⟨fun ⟨i, hi, hmsd⟩ => ⟨i, hi, hrecs i hi, hmsd⟩, fun ⟨i, hi, _, hmsd⟩ => ⟨i, hi, hmsd⟩⟩
  rw [hset]
  exact Records.latest_concat hrecs (by rw [hafter, and_comm]) hx

variable (buf recs) in
/-- The sources are the last descriptors of their kinds. -/
structure MsdSources.Last (src : MsdSources) : Prop where
  found : src.iface.isSome ↔ ∃ i ∈ recs, IsMassStorage buf i
  iface : ∀ i, src.iface = some i ↔ IsGreatest {o | o ∈ recs ∧ IsMassStorage buf o} i
  bulkIn : ∀ j, src.bulkIn = some j ↔
    IsGreatest {o | o ∈ recs ∧ IsBulkIn buf o ∧ AfterMassStorage buf recs o} j
  bulkOut : ∀ k, src.bulkOut = some k ↔
    IsGreatest {o | o ∈ recs ∧ IsBulkOut buf o ∧ AfterMassStorage buf recs o} k

theorem MsdSources.last_empty : MsdSources.empty.Last buf [] where
  found := ⟨fun h => absurd h (by decide), fun ⟨_, hi, _⟩ => absurd hi List.not_mem_nil⟩
  iface _ := ⟨fun h => absurd h.symm (Option.some_ne_none _), fun h => absurd h.1.1 List.not_mem_nil⟩
  bulkIn _ := ⟨fun h => absurd h.symm (Option.some_ne_none _), fun h => absurd h.1.1 List.not_mem_nil⟩
  bulkOut _ := ⟨fun h => absurd h.symm (Option.some_ne_none _), fun h => absurd h.1.1 List.not_mem_nil⟩

/-- One more descriptor. -/
theorem MsdSources.Last.step {src : MsdSources} (h : src.Last buf recs)
    (hrecs : ∀ o ∈ recs, o < n) : (src.step buf n).Last buf (recs ++ [n]) where
  found := by
    by_cases hmsd : IsMassStorage buf n
    · rw [MsdSources.step_massStorage hmsd]
      exact iff_of_true rfl ⟨n, List.mem_concat_self, hmsd⟩
    · refine (congrArg (fun x : Option Nat => x.isSome = true) (if_neg hmsd)).to_iff.trans
        (h.found.trans ⟨fun ⟨i, hi, hi'⟩ => ⟨i, List.mem_append_left _ hi, hi'⟩, ?_⟩)
      rintro ⟨i, hi, hi'⟩
      obtain hi | hi := List.mem_append.mp hi
      · exact ⟨i, hi, hi'⟩
      · exact absurd (List.mem_singleton.mp hi ▸ hi') hmsd
  iface i := Records.latest_concat hrecs Iff.rfl (h.iface i)
  bulkIn j := latest_after hrecs h.found (h.bulkIn j)
  bulkOut k := latest_after hrecs h.found (h.bulkOut k)

theorem MsdSources.last_foldl (hrecs : recs.Pairwise (· < ·)) :
    (recs.foldl (MsdSources.step buf) MsdSources.empty).Last buf recs := by
  induction recs using List.reverseRecOn with
  | nil => exact MsdSources.last_empty
  | append_singleton recs n ih =>
    obtain ⟨hpair, _, hlt⟩ := List.pairwise_append.mp hrecs
    rw [List.foldl_concat]
    exact (ih hpair).step fun o ho => hlt o ho n (List.mem_singleton_self n)

end Last

/-! ### Which interface the endpoints belong to -/

section Attached

variable (buf : Nat → BitVec 8) (last : Nat)

/-- The interface and the endpoints of the device come from the complete descriptors at `i`, `j`
and `k`, and the endpoints are the ones of the interface. -/
structure Attached (dev dev' : UsbDevice) (i j k : Nat) : Prop where
  sources : msdSources buf last = ⟨some i, some j, some k⟩
  device : dev' = { dev with
    ifaceNumber := buf (i + 2), bulkIn := endpointAt buf j, bulkOut := endpointAt buf k }
  massStorage : IsMassStorage buf i
  bulkIn : IsBulkIn buf j
  bulkOut : IsBulkOut buf k
  complete : ∀ o ∈ [i, j, k], o + (buf o).toNat ≤ last
  after : i < j ∧ i < k
  before : ∀ o ∈ descriptors buf last, IsInterface buf o → i < o → j < o ∧ k < o

/-- The interface at `i` has endpoints of both directions, and every bulk endpoint behind it is
complete and its own. -/
structure OwnEndpoints (i : Nat) : Prop where
  bulkIn : ∃ j ∈ descriptors buf last, i < j ∧ IsBulkIn buf j
  bulkOut : ∃ k ∈ descriptors buf last, i < k ∧ IsBulkOut buf k
  complete : ∀ j ∈ descriptors buf last, i < j → IsBulk buf j → j + (buf j).toNat ≤ last
  before : ∀ j ∈ descriptors buf last, i < j → IsBulk buf j →
    ∀ o ∈ descriptors buf last, IsInterface buf o → i < o → j < o

variable {buf last}

theorem msdSources_last : (msdSources buf last).Last buf (descriptors buf last) :=
  MsdSources.last_foldl (Records.pairwise_lt_offsets (by decide) last 9)

theorem lt_of_mem_descriptors {o : Nat} (ho : o ∈ descriptors buf last) : o < last :=
  (Records.mem_offsets ho).2.1

theorem complete_of_mem_descriptors {o o' : Nat} (ho : o ∈ descriptors buf last)
    (ho' : o' ∈ descriptors buf last) (hlt : o < o') : o + (buf o).toNat ≤ last :=
  (Records.complete_of_mem (by decide) ho ho' hlt).trans (lt_of_mem_descriptors ho').le

theorem Attached.ownEndpoints {dev dev' : UsbDevice} {i j k : Nat} (h : Attached buf last dev dev' i j k) :
    OwnEndpoints buf last i := by
  have hlast : (msdSources buf last).Last buf (descriptors buf last) := msdSources_last
  have hi := (hlast.iface i).mp (by rw [h.sources])
  have hj := (hlast.bulkIn j).mp (by rw [h.sources])
  have hk := (hlast.bulkOut k).mp (by rw [h.sources])
  -- A bulk endpoint behind the interface is the one of its direction, or stands before it.
  have hbulk : ∀ o ∈ descriptors buf last, i < o → IsBulk buf o → o ≤ j ∨ o ≤ k := by
    intro o ho hlt hbulk
    obtain hin | hout := hbulk.in_or_out
    · exact Or.inl (hj.2 ⟨ho, hin, i, hi.1.1, hlt, hi.1.2⟩)
    · exact Or.inr (hk.2 ⟨ho, hout, i, hi.1.1, hlt, hi.1.2⟩)
  refine ⟨⟨j, hj.1.1, h.after.1, h.bulkIn⟩, ⟨k, hk.1.1, h.after.2, h.bulkOut⟩, ?_, ?_⟩
  · intro o ho hlt hbulk'
    obtain hle | hle := hbulk o ho hlt hbulk'
    · obtain rfl | hlt := hle.eq_or_lt
      · exact h.complete o (by simp)
      · exact complete_of_mem_descriptors ho hj.1.1 hlt
    · obtain rfl | hlt := hle.eq_or_lt
      · exact h.complete o (by simp)
      · exact complete_of_mem_descriptors ho hk.1.1 hlt
  · intro o ho hlt hbulk' o' ho' hiface hlt'
    obtain ⟨hjo, hko⟩ := h.before o' ho' hiface hlt'
    obtain hle | hle := hbulk o ho hlt hbulk'
    · exact lt_of_le_of_lt hle hjo
    · exact lt_of_le_of_lt hle hko

theorem exists_last {P : Nat → Prop} (h : ∃ o ∈ descriptors buf last, P o) :
    ∃ j, IsGreatest {o | o ∈ descriptors buf last ∧ P o} j :=
  BddAbove.exists_isGreatest_of_nonempty ⟨last, fun _ ho => (lt_of_mem_descriptors ho.1).le⟩ h

theorem OwnEndpoints.attached {dev : UsbDevice} {i : Nat} (h : OwnEndpoints buf last i)
    (hi : IsGreatest {o | o ∈ descriptors buf last ∧ IsMassStorage buf o} i) :
    ∃ j k, Attached buf last dev ((msdSources buf last).device buf dev) i j k := by
  have hlast : (msdSources buf last).Last buf (descriptors buf last) := msdSources_last
  obtain ⟨j₀, hj₀, hlt₀, hin₀⟩ := h.bulkIn
  obtain ⟨k₀, hk₀, hlt₁, hout₀⟩ := h.bulkOut
  obtain ⟨j, hj⟩ := exists_last (P := fun o =>
    IsBulkIn buf o ∧ AfterMassStorage buf (descriptors buf last) o)
    ⟨j₀, hj₀, hin₀, i, hi.1.1, hlt₀, hi.1.2⟩
  obtain ⟨k, hk⟩ := exists_last (P := fun o =>
    IsBulkOut buf o ∧ AfterMassStorage buf (descriptors buf last) o)
    ⟨k₀, hk₀, hout₀, i, hi.1.1, hlt₁, hi.1.2⟩
  have hij : i < j := lt_of_lt_of_le hlt₀ (hj.2 ⟨hj₀, hin₀, i, hi.1.1, hlt₀, hi.1.2⟩)
  have hik : i < k := lt_of_lt_of_le hlt₁ (hk.2 ⟨hk₀, hout₀, i, hi.1.1, hlt₁, hi.1.2⟩)
  have hsources : msdSources buf last = ⟨some i, some j, some k⟩ := by
    rw [← (hlast.iface i).mpr hi, ← (hlast.bulkIn j).mpr hj, ← (hlast.bulkOut k).mpr hk]
  refine ⟨j, k, hsources, by rw [hsources]; rfl, hi.1.2, hj.1.2.1, hk.1.2.1, ?_, ⟨hij, hik⟩, ?_⟩
  · simp only [List.forall_mem_cons, List.not_mem_nil, IsEmpty.forall_iff, implies_true, and_true]
    exact ⟨complete_of_mem_descriptors hi.1.1 hj.1.1 hij, h.complete j hj.1.1 hij hj.1.2.1.1,
      h.complete k hk.1.1 hik hk.1.2.1.1⟩
  · intro o ho hiface hlt
    exact ⟨h.before j hj.1.1 hij hj.1.2.1.1 o ho hiface hlt,
      h.before k hk.1.1 hik hk.1.2.1.1 o ho hiface hlt⟩

end Attached

/-- **The walk attaches complete endpoints of the interface that it selects exactly if the last
mass-storage interface has endpoints of both directions, and every bulk endpoint behind it is
complete and its own.** -/
theorem msd_attached_iff (buf : Nat → BitVec 8) (wTotalLength : BitVec 16) (dev : UsbDevice) :
    (∀ dev', parseDescriptors buf (configLength wTotalLength) (configLength wTotalLength) 9 false dev =
        (true, dev') → ∃ i j k, Attached buf (configLength wTotalLength) dev dev' i j k) ↔
      ∀ i, IsGreatest {o | o ∈ descriptors buf (configLength wTotalLength) ∧ IsMassStorage buf o} i →
        OwnEndpoints buf (configLength wTotalLength) i := by
  generalize configLength wTotalLength = last
  have hlast : (msdSources buf last).Last buf (descriptors buf last) := msdSources_last
  constructor
  · intro h i hi
    have hiface := (hlast.iface i).mpr hi
    have hparse : parseDescriptors buf last last 9 false dev =
        (true, (msdSources buf last).device buf dev) := by
      rw [parseDescriptors_eq, hiface]
      rfl
    obtain ⟨i', j, k, hattached⟩ := h _ hparse
    obtain rfl : i' = i := by
      rw [hattached.sources] at hiface
      exact Option.some.inj hiface
    exact hattached.ownEndpoints
  · intro h dev' hparse
    rw [parseDescriptors_eq] at hparse
    obtain ⟨hsome, rfl⟩ := Prod.mk.inj hparse
    obtain ⟨i, hiface⟩ := Option.isSome_iff_exists.mp hsome
    have hi := (hlast.iface i).mp hiface
    exact ⟨i, (h i hi).attached hi⟩

/-- A configuration descriptor, a mass-storage interface with its two endpoints, and a vendor
interface with two bulk endpoints. -/
def exampleConfig : List (BitVec 8) :=
  [9, 0x02, 55, 0, 2, 1, 0, 0x80, 50,
    9, 0x04, 0, 0, 2, 0x08, 0x06, 0x50, 0,
    7, 0x05, 0x81, 0x02, 0x00, 0x02, 0,
    7, 0x05, 0x02, 0x02, 0x00, 0x02, 0,
    9, 0x04, 1, 0, 2, 0xFF, 0, 0, 0,
    7, 0x05, 0x83, 0x02, 0x00, 0x02, 0,
    7, 0x05, 0x04, 0x02, 0x00, 0x02, 0]

/-- The endpoints of the vendor interface are attached to the mass-storage interface. -/
theorem exampleConfig_not_attached :
    ¬∀ dev dev', parseDescriptors (fun i => exampleConfig.getD i 0) (configLength 55) (configLength 55) 9
        false dev = (true, dev') →
      ∃ i j k, Attached (fun i => exampleConfig.getD i 0) (configLength 55) dev dev' i j k := by
  intro h
  have hsources : msdSources (fun i => exampleConfig.getD i 0) (configLength 55) =
      ⟨some 9, some 41, some 48⟩ := by decide
  have hdescriptors : 32 ∈ descriptors (fun i => exampleConfig.getD i 0) (configLength 55) ∧
      IsInterface (fun i => exampleConfig.getD i 0) 32 := by decide
  obtain ⟨i, j, k, hattached⟩ := h ⟨1, 1, ⟨0, 0, 0⟩, ⟨0, 0, 0⟩, 0⟩ _
    ((parseDescriptors_eq _).trans (by rw [hsources]; rfl))
  obtain ⟨hi, hj, -⟩ := MsdSources.mk.inj (hsources.symm.trans hattached.sources)
  have hbefore := (hattached.before 32 hdescriptors.1 hdescriptors.2 (Option.some.inj hi ▸ by decide)).1
  rw [← Option.some.inj hj] at hbefore
  exact absurd hbefore (by decide)

/-! ### What the walk reads -/

section Reads

variable (mem : Nat → BitVec 8)

/-- A read in the page of the descriptors. -/
def pageByte (o : Nat) : Option (BitVec 8) := if o < 4096 then some (mem o) else none

/-- One descriptor, with all that is read of it. -/
def pageDescriptor (o : Nat) (len type : BitVec 8) (foundMsd : Bool) (dev : UsbDevice) :
    Option (Bool × UsbDevice) :=
  if type = 0x04 ∧ 9 ≤ len then do
    let number ← pageByte mem (o + 2)
    let cls ← pageByte mem (o + 5)
    let subclass ← pageByte mem (o + 6)
    let protocol ← pageByte mem (o + 7)
    if cls = usbClassMassStorage ∧ subclass = usbSubclassScsi ∧ protocol = usbProtocolBulkOnly then
      some (true, { dev with ifaceNumber := number })
    else some (foundMsd, dev)
  else if type = 0x05 ∧ 7 ≤ len then do
    let addr ← pageByte mem (o + 2)
    let attrs ← pageByte mem (o + 3)
    let low ← pageByte mem (o + 4)
    let high ← pageByte mem (o + 5)
    if foundMsd ∧ attrs &&& 0x03 = 0x02 then
      let ep : UsbEndpoint := ⟨addr, high ++ low, attrs⟩
      some (foundMsd, if addr &&& 0x80 ≠ 0 then { dev with bulkIn := ep } else { dev with bulkOut := ep })
    else some (foundMsd, dev)
  else some (foundMsd, dev)

/-- The loop with its reads.  There is no result when a read is outside of the page, or when the
rounds do not suffice. -/
def configLoop (last : Nat) : Nat → Nat → Bool → UsbDevice → Option (Bool × UsbDevice)
  | 0, _, _, _ => none
  | n + 1, i, foundMsd, dev =>
    if last ≤ i then some (foundMsd, dev)
    else do
      let len ← pageByte mem i
      let type ← pageByte mem (i + 1)
      if len < 2 then some (foundMsd, dev)
      else
        let (foundMsd, dev) ← pageDescriptor mem i len type foundMsd dev
        configLoop last n (i + len.toNat) foundMsd dev

variable {mem}

theorem pageByte_of_lt {o : Nat} (h : o < 4096) : pageByte mem o = some (mem o) := if_pos h

theorem pageDescriptor_eq {o : Nat} (ho : o + 8 ≤ 4096) (foundMsd : Bool) (dev : UsbDevice) :
    pageDescriptor mem o (mem o) (mem (o + 1)) foundMsd dev =
      some (parseDescriptor (fun k => mem (o + k)) foundMsd dev) := by
  have hbyte : ∀ k, k < 8 → pageByte mem (o + k) = some (mem (o + k)) := fun k hk =>
    pageByte_of_lt (by omega)
  unfold pageDescriptor parseDescriptor
  rw [hbyte 2 (by decide), hbyte 3 (by decide), hbyte 4 (by decide), hbyte 5 (by decide),
    hbyte 6 (by decide), hbyte 7 (by decide)]
  simp only [Option.bind_eq_bind, Option.bind_some, Nat.add_zero]
  split_ifs <;> rfl

theorem configLoop_eq_parse {last n i : Nat} (hlast : last ≤ 1024) (hfuel : last ≤ i + n)
    (foundMsd : Bool) (dev : UsbDevice) :
    configLoop mem last (n + 1) i foundMsd dev = some (parseDescriptors mem last n i foundMsd dev) := by
  induction n generalizing i foundMsd dev with
  | zero => exact if_pos hfuel
  | succ n ih =>
    by_cases hend : last ≤ i
    · exact (if_pos hend).trans (congrArg some (if_pos (Or.inl hend)).symm)
    · refine (if_neg hend).trans ?_
      rw [pageByte_of_lt (by omega), pageByte_of_lt (by omega)]
      by_cases hlen : mem i < 2
      · exact (if_pos hlen).trans (congrArg some (if_pos (Or.inr hlen)).symm)
      · refine (if_neg hlen).trans ?_
        rw [pageDescriptor_eq (by omega)]
        have hstep : 2 ≤ (mem i).toNat := not_lt.mp hlen
        refine (ih (by omega) _ _).trans (congrArg some ?_)
        exact (if_neg (not_or.mpr ⟨hend, hlen⟩)).symm

/-- **The loop ends, and it reads the page only.** -/
theorem configLoop_eq (mem : Nat → BitVec 8) (wTotalLength : BitVec 16) (dev : UsbDevice) :
    configLoop mem (configLength wTotalLength) (configLength wTotalLength + 1) 9 false dev =
      some (parseDescriptors mem (configLength wTotalLength) (configLength wTotalLength) 9 false dev) :=
  configLoop_eq_parse (configLength_le wTotalLength) (Nat.le_add_left _ _) false dev

end Reads

end AncoreOS.Drivers
