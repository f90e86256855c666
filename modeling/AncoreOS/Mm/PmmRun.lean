import AncoreOS.Mm.PmmInvariant
import Mathlib.Logic.Relation

/-!
# Every run of the allocator

`PmmRun` is the allocator together with the pages its clients hold.  A step is
a `palloc`, a `pfree` of a held page, or one byte written by a client to a page
it holds.  `pmm_run_partition` is what all of them keep, from the state
`pmm_init` leaves on: the list is sound, the usable frames are split between
the list and the clients, and the counters count the two sides.
-/

namespace AncoreOS.Mm

open ByteMemory

/-- The allocator and the pages its clients hold. -/
structure PmmRun where
  pmm : Pmm
  held : List Word

/-- One step of the allocator or of a client. -/
inductive PmmStep (b : Limine) : PmmRun → PmmRun → Prop
  | palloc (r : PmmRun) : PmmStep b r ⟨(palloc b r.pmm).2,
      if (palloc b r.pmm).1 = 0 then r.held else (palloc b r.pmm).1 :: r.held⟩
  | pfree (r : PmmRun) {f : Word} : f ∈ r.held → PmmStep b r ⟨pfree b r.pmm f, r.held.erase f⟩
  | write (r : PmmRun) {a : Word} (v : BitVec 8) : pageOf a ∈ r.held →
      PmmStep b r ⟨{ r.pmm with mem := Function.update r.pmm.mem a v }, r.held⟩

/-- What holds of the allocator in every state, with `L` the frames that are
reached from `free_mem_head`. -/
structure Partition (b : Limine) (r : PmmRun) (L : List Word) : Prop where
  reached : Chain (regionNext b r.pmm.mem) 0 r.pmm.freeMemHead (L.map (· + b.hhdmOffset))
  nodup : L.Nodup
  base : ∀ f ∈ L, regionBase b r.pmm.mem (f + b.hhdmOffset) = f
  usable : ∀ f, b.UsableFrame f ↔ f ∈ L ∨ f ∈ r.held
  apart : ∀ f ∈ L, f ∉ r.held
  heldNodup : r.held.Nodup
  free : (pmmGetFreePages r.pmm).toNat = L.length
  used : (pmmGetUsedPages r.pmm).toNat = r.held.length
  freeLeTotal : pmmGetFreePages r.pmm ≤ pmmGetTotalPages r.pmm
  pallocZero : (palloc b r.pmm).1 = 0 ↔ L = []
  pallocFresh : L ≠ [] → (palloc b r.pmm).1 ∈ L

variable {b : Limine} {r r' : PmmRun} {L : List Word}

theorem PmmInv.ne_zero (hb : b.Ok) {s : Pmm} {out : List Word} (h : PmmInv b s L out) {f : Word}
    (hf : f ∈ L) : f ≠ 0 := by
  rintro rfl
  exact hb.pageZero ((h.usable 0).mpr (List.mem_append_left out hf))

/-- There are as many frames on the list and in the hands of the clients as are known to be
usable. -/
theorem PmmInv.frames_length_le {s : Pmm} {out frames : List Word} (h : PmmInv b s L out)
    (hnodup : frames.Nodup) (hframes : ∀ f ∈ frames, b.UsableFrame f) :
    frames.length ≤ L.length + out.length := by
  have hsub : frames ⊆ L ++ out := fun f hf => (h.usable f).mp (hframes f hf)
  rw [← List.length_append]
  exact (List.subperm_of_subset hnodup hsub).length_le

theorem PmmInv.palloc_ne_zero (hb : b.Ok) {s : Pmm} {out : List Word} (h : PmmInv b s L out)
    (hfree : 0 < L.length) : (Mm.palloc b s).1 ≠ 0 := by
  cases L with
  | nil => exact absurd hfree (lt_irrefl 0)
  | cons f L =>
    obtain ⟨_, hpalloc, _⟩ := h.palloc
    rw [hpalloc]
    exact h.ne_zero hb List.mem_cons_self

theorem PmmInv.partition (hb : b.Ok) (h : PmmInv b r.pmm L r.held) : Partition b r L := by
  have hfree : r.pmm.pmmFreePages.toNat = L.length := h.list.free
  have htotal : r.pmm.pmmTotalPages.toNat = L.length + r.held.length := by
    rw [h.total, List.length_append]
  have hle : r.pmm.pmmFreePages ≤ r.pmm.pmmTotalPages := by
    rw [BitVec.le_def, hfree, htotal]
    omega
  refine ⟨h.list.chain, h.list.nodup, h.list.base, ?_, ?_, ?_, hfree, ?_, hle, ?_, ?_⟩
  · intro f
    rw [h.usable f, List.mem_append]
  · exact fun f hf => h.not_mem_out hf
  · exact (List.nodup_append.mp h.nodup).2.1
  · rw [pmmGetUsedPages, BitVec.toNat_sub_of_le hle, hfree, htotal]
    omega
  · cases L with
    | nil => simp [h.list.palloc_nil]
    | cons f L =>
      obtain ⟨s', hrun, _⟩ := h.palloc
      rw [hrun]
      exact iff_of_false (h.ne_zero hb List.mem_cons_self) (List.cons_ne_nil f L)
  · intro hne
    cases L with
    | nil => exact absurd rfl hne
    | cons f L =>
      obtain ⟨s', hrun, _⟩ := h.palloc
      simp [hrun]

/-- One step keeps the split of the usable frames. -/
theorem PmmStep.inv (hb : b.Ok) (hstep : PmmStep b r r') (h : PmmInv b r.pmm L r.held) :
    ∃ L', PmmInv b r'.pmm L' r'.held := by
  cases hstep with
  | palloc =>
    cases L with
    | nil =>
      rw [h.list.palloc_nil]
      exact ⟨[], h⟩
    | cons f L =>
      obtain ⟨s', hrun, hinv, _⟩ := h.palloc
      rw [hrun]
      simp only [if_neg (h.ne_zero hb List.mem_cons_self)]
      exact ⟨L, hinv⟩
  | pfree hf => exact ⟨_, h.pfree hb hf⟩
  | write v hf =>
    refine ⟨L, h.frame (fun x hx => Function.update_of_ne ?_ _ _)⟩
    rintro rfl
    exact h.not_mem_of_mem_out hf hx

theorem pmm_run_inv (hb : b.Ok) (hrun : Relation.ReflTransGen (PmmStep b) r r')
    (h : PmmInv b r.pmm L r.held) : ∃ L', PmmInv b r'.pmm L' r'.held := by
  induction hrun with
  | refl => exact ⟨L, h⟩
  | tail _ hstep ih =>
    obtain ⟨L', h'⟩ := ih
    exact hstep.inv hb h'

/-- **The usable frames are always split between the list and the clients.** -/
theorem pmm_run_partition (hb : b.Ok) (mem : Mem) :
    ∃ s, pmmInit b mem = some s ∧
      ∀ r, Relation.ReflTransGen (PmmStep b) ⟨s, []⟩ r → ∃ L, Partition b r L := by
  obtain ⟨s, L, hinit, hinv, _⟩ := pmmInit_inv hb mem
  refine ⟨s, hinit, fun r hrun => ?_⟩
  obtain ⟨L', h'⟩ := pmm_run_inv hb hrun hinv
  exact ⟨L', h'.partition hb⟩

/-- A map with an unaligned usable entry, a sub-page one and a reserved one. -/
def exampleMap : Limine where
  entries := [⟨0x1100, 0x2F00, 0⟩, ⟨0x5010, 0x20, 0⟩, ⟨0x8000, 0x4000, 1⟩]
  hhdmOffset := 0xFFFF800000000000

theorem exampleMap_usable {f : Word} (h : exampleMap.UsableFrame f) :
    f.toNat = 0x2000 ∨ f.toNat = 0x3000 := by
  obtain ⟨e, he, ht, ha, h₁, h₂⟩ := h
  simp only [exampleMap, List.mem_cons, List.not_mem_nil, or_false] at he
  rw [PageAligned] at ha
  rcases he with rfl | rfl | rfl
  · rw [show (0x1100 : Word).toNat = 0x1100 from rfl] at h₁ h₂
    rw [show (0x2F00 : Word).toNat = 0x2F00 from rfl] at h₂
    omega
  · rw [show (0x5010 : Word).toNat = 0x5010 from rfl] at h₁ h₂
    rw [show (0x20 : Word).toNat = 0x20 from rfl] at h₂
    omega
  · exact absurd ht (by decide)

theorem exampleMap_ok : exampleMap.Ok where
  disjoint := by
    simp [exampleMap, LimineMemmapEntry.Covers, limineMemmapUsable]
    omega
  bounded := by simp [exampleMap]
  pageZero := fun h => by
    have := exampleMap_usable h
    simp at this
  hhdm := fun f h => by
    have := exampleMap_usable h
    rw [exampleMap]
    bv_omega

theorem pmm_run_partition_exampleMap :
    ∃ s, pmmInit exampleMap (fun _ => 0) = some s ∧
      ∀ r, Relation.ReflTransGen (PmmStep exampleMap) ⟨s, []⟩ r → ∃ L, Partition exampleMap r L :=
  pmm_run_partition exampleMap_ok (fun _ => 0)

end AncoreOS.Mm
