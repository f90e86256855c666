import AncoreOS.Library.Chain
import AncoreOS.Mm.Pmm

/-!
# The free list and its owner

`FreeList b s L` says that the list in memory holds exactly the frames `L`, in
order, and that `pmm_free_pages` counts them.  `PmmInv b s out` adds the
ownership: the usable frames of the memory map are split between the list and
the frames `out` that have been handed out, and `pmm_total_pages` counts both.

Three lemmas carry everything that runs on the allocator: `PmmInv.palloc` and
`PmmInv.pfree` move one frame between the two sides, and `PmmInv.frame` says
the invariant does not look at any byte outside the free frames, so a client
may write whatever it likes to what it holds.  `pmmInit_inv` starts it off.
-/

namespace AncoreOS.Mm

open ByteMemory

variable {b : Limine} {s : Pmm} {L out : List Word}

/-! ### The list -/

/-- The list in memory holds the frames `L`, in order. -/
structure FreeList (b : Limine) (s : Pmm) (L : List Word) : Prop where
  chain : Chain (regionNext b s.mem) 0 s.freeMemHead (L.map (· + b.hhdmOffset))
  base : ∀ f ∈ L, regionBase b s.mem (f + b.hhdmOffset) = f
  aligned : ∀ f ∈ L, PageAligned f
  nodup : L.Nodup
  free : s.pmmFreePages.toNat = L.length

theorem regionBase_congr {m m' : Mem} {f : Word} (hf : PageAligned f)
    (h : ∀ x, pageOf x = f → m' x = m x) :
    regionBase b m' (f + b.hhdmOffset) = regionBase b m (f + b.hhdmOffset) := by
  rw [regionBase, regionBase, Limine.deref_add]
  refine load64_congr (fun x hx => h x ?_)
  exact pageOf_of_inRange_start hf hx (by decide)

theorem regionNext_congr {m m' : Mem} {f : Word} (hf : PageAligned f)
    (h : ∀ x, pageOf x = f → m' x = m x) :
    regionNext b m' (f + b.hhdmOffset) = regionNext b m (f + b.hhdmOffset) := by
  rw [regionNext, regionNext, Limine.deref_add]
  exact load64_congr (fun x hx => h x (pageOf_of_inRange (o := 8) hf hx (by omega)))

/-- The list does not depend on any byte outside its frames. -/
theorem FreeList.frame (h : FreeList b s L) {m : Mem}
    (hm : ∀ x, pageOf x ∈ L → m x = s.mem x) : FreeList b { s with mem := m } L := by
  refine ⟨h.chain.congr ?_, ?_, h.aligned, h.nodup, h.free⟩
  · intro p hp
    obtain ⟨f, hf, rfl⟩ := List.mem_map.mp hp
    exact regionNext_congr (h.aligned f hf) (fun x hx => hm x (by rw [hx]; exact hf))
  · intro f hf
    have hm' : ∀ x, pageOf x = f → m x = s.mem x := fun x hx => hm x (by rw [hx]; exact hf)
    exact (regionBase_congr (h.aligned f hf) hm').trans (h.base f hf)

theorem FreeList.head_eq_zero_iff (h : FreeList b s L) : s.freeMemHead = 0 ↔ L = [] := by
  rw [← h.chain.eq_nil_iff, List.map_eq_nil_iff]

/-- The list is read off memory, so two lists of it start the same. -/
theorem FreeList.front_mem {f : Word} {L' : List Word} (h : FreeList b s (f :: L))
    (h' : FreeList b s L') : f ∈ L' := by
  obtain ⟨hhead, _⟩ := h.chain.tail
  cases L' with
  | nil =>
    have hnil := h.head_eq_zero_iff.mp (h'.head_eq_zero_iff.mpr rfl)
    exact absurd hnil (List.cons_ne_nil f L)
  | cons g L' =>
    obtain ⟨hhead', _⟩ := h'.chain.tail
    have hfg : f = g := add_right_cancel (hhead.symm.trans hhead')
    exact hfg ▸ List.mem_cons_self

/-- A frame that is not on the list goes to its front, whatever the two words
`base` and `next` were before.  Both `pmm_init` and `pfree` end here. -/
theorem FreeList.push (h : FreeList b s L) {f : Word} {m : Mem} {total : Word}
    (hf : PageAligned f) (hnew : f ∉ L) (hnull : f + b.hhdmOffset ≠ 0)
    (hlen : L.length + 1 < 2 ^ 64)
    (hm : ∀ x, pageOf x ≠ f → m x = s.mem x)
    (hbase : regionBase b m (f + b.hhdmOffset) = f)
    (hnext : regionNext b m (f + b.hhdmOffset) = s.freeMemHead) :
    FreeList b ⟨m, f + b.hhdmOffset, total, s.pmmFreePages + 1⟩ (f :: L) := by
  have hold : ∀ g ∈ L, ∀ x, pageOf x = g → m x = s.mem x := by
    intro g hg x hx
    refine hm x (fun he => hnew ?_)
    rw [← he, hx]
    exact hg
  refine ⟨?_, ?_, ?_, List.nodup_cons.mpr ⟨hnew, h.nodup⟩, ?_⟩
  · refine h.chain.push hnull hnext ?_
    intro p hp
    obtain ⟨g, hg, rfl⟩ := List.mem_map.mp hp
    exact regionNext_congr (h.aligned g hg) (hold g hg)
  · intro g hg
    rcases List.mem_cons.mp hg with rfl | hg
    · exact hbase
    · exact (regionBase_congr (h.aligned g hg) (hold g hg)).trans (h.base g hg)
  · intro g hg
    rcases List.mem_cons.mp hg with rfl | hg
    · exact hf
    · exact h.aligned g hg
  · show (s.pmmFreePages + 1).toNat = L.length + 1
    have := h.free
    rw [BitVec.toNat_add, this]
    exact Nat.mod_eq_of_lt hlen

/-- The two words of a region are disjoint. -/
theorem region_words_disjoint {f x : Word} (h : InRange f 8 x) : ¬ InRange (f + 8) 8 x := by
  have h0 : InRange (f + BitVec.ofNat 64 0) 8 x := by simpa using h
  have h8 : ¬ InRange (f + BitVec.ofNat 64 8) 8 x :=
    not_inRange_of_offset h0 (by omega) (by omega) (by omega)
  exact h8

theorem region_store_frame {m : Mem} {f u v x : Word} (hf : PageAligned f) (hx : pageOf x ≠ f) :
    store64 (store64 m f u) (f + 8) v x = m x := by
  have h₁ : ¬ InRange f 8 x := fun h =>
    hx (pageOf_of_inRange_start hf h (by decide))
  have h₂ : ¬ InRange (f + 8) 8 x := fun h => hx (pageOf_of_inRange (o := 8) hf h (by omega))
  rw [store64, store64, store_apply_of_not_inRange h₂, store_apply_of_not_inRange h₁]

theorem region_store_comm (m : Mem) (f u v : Word) :
    store64 (store64 m (f + 8) v) f u = store64 (store64 m f u) (f + 8) v := by
  funext x
  simp only [store64, store]
  by_cases h : InRange f 8 x
  · rw [if_pos h, if_neg (region_words_disjoint h), if_pos h]
  · rw [if_neg h, if_neg h]

theorem pmmInitPage_mem {f x : Word} (hf : PageAligned f) (hx : pageOf x ≠ f) :
    (pmmInitPage b s f).mem x = s.mem x := by
  rw [Mm.pmmInitPage, Limine.deref_add]
  exact region_store_frame hf hx

theorem FreeList.pmmInitPage (h : FreeList b s L) {f : Word} (hf : PageAligned f) (hnew : f ∉ L)
    (hnull : f + b.hhdmOffset ≠ 0) (hlen : L.length + 1 < 2 ^ 64) :
    FreeList b (pmmInitPage b s f) (f :: L) := by
  rw [Mm.pmmInitPage, Limine.deref_add]
  refine h.push hf hnew hnull hlen (fun x hx => region_store_frame hf hx) ?_ ?_
  · rw [regionBase, Limine.deref_add, load64_store64_of_disjoint
      (fun x hx => region_words_disjoint hx), load64_store64_same]
  · rw [regionNext, Limine.deref_add, load64_store64_same]

theorem pfree_mem {f x : Word} (hf : PageAligned f) (hx : pageOf x ≠ f) :
    (pfree b s f).mem x = s.mem x := by
  rw [Mm.pfree, Limine.deref_add, region_store_comm]
  exact region_store_frame hf hx

theorem FreeList.pfree (h : FreeList b s L) {f : Word} (hf : PageAligned f) (hnew : f ∉ L)
    (hnull : f + b.hhdmOffset ≠ 0) (hlen : L.length + 1 < 2 ^ 64) :
    FreeList b (pfree b s f) (f :: L) := by
  rw [Mm.pfree, Limine.deref_add, region_store_comm]
  refine h.push hf hnew hnull hlen (fun x hx => region_store_frame hf hx) ?_ ?_
  · rw [regionBase, Limine.deref_add, load64_store64_of_disjoint
      (fun x hx => region_words_disjoint hx), load64_store64_same]
  · rw [regionNext, Limine.deref_add, load64_store64_same]

/-- `palloc` on an empty list changes nothing and returns `0`. -/
theorem FreeList.palloc_nil (h : FreeList b s []) : palloc b s = (0, s) := by
  rw [palloc, if_pos (h.head_eq_zero_iff.mpr rfl)]

/-- `palloc` takes the first frame off the list and writes no memory. -/
theorem FreeList.palloc_cons {f : Word} (h : FreeList b s (f :: L)) :
    ∃ s', palloc b s = (f, s') ∧ FreeList b s' L ∧ s'.mem = s.mem ∧
      s'.pmmTotalPages = s.pmmTotalPages := by
  have hne : s.freeMemHead ≠ 0 := by
    intro h0
    simpa using h.head_eq_zero_iff.mp h0
  obtain ⟨hhead, htail⟩ := h.chain.tail
  have hbase : regionBase b s.mem s.freeMemHead = f := by
    rw [hhead]
    exact h.base f List.mem_cons_self
  have hrun : palloc b s = (f, { s with
      freeMemHead := regionNext b s.mem s.freeMemHead
      pmmFreePages := s.pmmFreePages - 1 }) := by
    rw [palloc, if_neg hne]
    exact congrArg₂ Prod.mk hbase rfl
  have hfree : (s.pmmFreePages - 1).toNat = L.length := by
    have hlen := h.free
    rw [List.length_cons] at hlen
    have hone : (1 : Word).toNat = 1 := rfl
    rw [BitVec.toNat_sub_of_le (by rw [BitVec.le_def, hlen, hone]; omega), hlen, hone]
    omega
  refine ⟨_, hrun, ⟨htail, ?_, ?_, h.nodup.of_cons, hfree⟩, rfl, rfl⟩
  · exact fun g hg => h.base g (List.mem_cons_of_mem f hg)
  · exact fun g hg => h.aligned g (List.mem_cons_of_mem f hg)

/-! ### Ownership -/

/-- The usable frames are split between the list `L` and the frames `out` that
have been handed out, and `pmm_total_pages` counts them all. -/
structure PmmInv (b : Limine) (s : Pmm) (L out : List Word) : Prop where
  list : FreeList b s L
  nodup : (L ++ out).Nodup
  usable : ∀ f, b.UsableFrame f ↔ f ∈ L ++ out
  total : s.pmmTotalPages.toNat = (L ++ out).length

theorem Limine.UsableFrame.aligned {f : Word} (h : b.UsableFrame f) : PageAligned f := by
  obtain ⟨_, _, _, hf, _⟩ := h
  exact hf

/-- Distinct nonzero words are fewer than `2 ^ 64`. -/
theorem length_lt_of_nodup {l : List Word} (h : l.Nodup) (h0 : 0 ∉ l) : l.length < 2 ^ 64 := by
  have hmap : (l.map BitVec.toNat).Nodup := h.map (fun _ _ he => BitVec.eq_of_toNat_eq he)
  have hsub : (l.map BitVec.toNat).toFinset ⊆ Finset.Ioo 0 (2 ^ 64) := by
    intro n hn
    obtain ⟨w, hw, rfl⟩ := List.mem_map.mp (List.mem_toFinset.mp hn)
    refine Finset.mem_Ioo.mpr ⟨Nat.pos_of_ne_zero (fun hz => h0 ?_), w.isLt⟩
    have hw0 : w = 0 := BitVec.eq_of_toNat_eq hz
    rwa [← hw0]
  have hcard := Finset.card_le_card hsub
  rw [List.toFinset_card_of_nodup hmap, List.length_map, Nat.card_Ioo] at hcard
  omega

theorem PmmInv.length_lt (hb : b.Ok) (h : PmmInv b s L out) : (L ++ out).length < 2 ^ 64 :=
  length_lt_of_nodup h.nodup (fun h0 => hb.pageZero ((h.usable 0).mpr h0))

theorem PmmInv.not_mem_of_mem_out (h : PmmInv b s L out) {f : Word} (hf : f ∈ out) : f ∉ L :=
  fun hL => (List.nodup_append.mp h.nodup).2.2 f hL f hf rfl

theorem PmmInv.not_mem_out (h : PmmInv b s L out) {f : Word} (hf : f ∈ L) : f ∉ out :=
  fun ho => (List.nodup_append.mp h.nodup).2.2 f hf f ho rfl

/-- **The invariant does not look at what has been handed out.** -/
theorem PmmInv.frame (h : PmmInv b s L out) {m : Mem}
    (hm : ∀ x, pageOf x ∈ L → m x = s.mem x) : PmmInv b { s with mem := m } L out :=
  ⟨h.list.frame hm, h.nodup, h.usable, h.total⟩

/-- Memory may change in a page that has been handed out. -/
theorem PmmInv.frame_page (h : PmmInv b s L out) {f : Word} (hf : f ∈ out) {m : Mem}
    (hm : ∀ x, pageOf x ≠ f → m x = s.mem x) : PmmInv b { s with mem := m } L out :=
  h.frame fun x hx => hm x fun hxf => h.not_mem_of_mem_out hf (hxf ▸ hx)

/-- **`palloc` hands out the first frame of the list.** -/
theorem PmmInv.palloc {f : Word} (h : PmmInv b s (f :: L) out) :
    ∃ s', palloc b s = (f, s') ∧ PmmInv b s' L (f :: out) ∧ s'.mem = s.mem := by
  obtain ⟨s', hrun, hlist, hmem, htotal⟩ := h.list.palloc_cons
  have hperm : (L ++ f :: out).Perm (f :: L ++ out) := List.perm_middle
  refine ⟨s', hrun, ⟨hlist, hperm.nodup_iff.mpr h.nodup, ?_, ?_⟩, hmem⟩
  · intro g
    rw [h.usable g, hperm.mem_iff]
  · rw [htotal, h.total, hperm.length_eq]

/-- **`pfree` takes a frame back.** -/
theorem PmmInv.pfree (hb : b.Ok) (h : PmmInv b s L out) {f : Word} (hf : f ∈ out) :
    PmmInv b (pfree b s f) (f :: L) (out.erase f) := by
  have husable : b.UsableFrame f := (h.usable f).mpr (List.mem_append_right L hf)
  have hperm : (f :: L ++ out.erase f).Perm (L ++ out) :=
    List.perm_middle.symm.trans ((List.perm_cons_erase hf).symm.append_left L)
  have hlen := h.length_lt hb
  have hpos := List.length_pos_of_mem hf
  rw [List.length_append] at hlen
  refine ⟨?_, hperm.nodup_iff.mpr h.nodup, ?_, ?_⟩
  · exact h.list.pfree husable.aligned (h.not_mem_of_mem_out hf) (hb.hhdm f husable) (by omega)
  · intro g
    rw [h.usable g, hperm.mem_iff]
  · rw [hperm.length_eq]
    exact h.total

/-! ### `pmm_init` -/

theorem alignUp_toNat {a : Word} (h : a.toNat ≤ 2 ^ 63) :
    (alignUp a pageSize).toNat = (a.toNat + 4095) / 4096 * 4096 := by
  have hadd : (a + (pageSize - 1)).toNat = a.toNat + 4095 := by
    rw [BitVec.toNat_add, show (pageSize - 1).toNat = 4095 from rfl]
    omega
  rw [← hadd, ← pageOf_toNat]
  rfl

theorem alignDown_toNat (a : Word) : (alignDown a pageSize).toNat = a.toNat / 4096 * 4096 :=
  pageOf_toNat a

/-- The pages the inner loop visits are the frames of the entry. -/
theorem hasFrame_iff {e : LimineMemmapEntry} (he : e.base.toNat + e.length.toNat ≤ 2 ^ 63)
    (f : Word) : e.HasFrame f ↔ PageAligned f ∧ (alignUp e.base pageSize).toNat ≤ f.toNat ∧
      f.toNat < (alignDown (e.base + e.length) pageSize).toNat := by
  have hadd : (e.base + e.length).toNat = e.base.toNat + e.length.toNat := by
    rw [BitVec.toNat_add]
    omega
  rw [LimineMemmapEntry.HasFrame, alignUp_toNat (by omega), alignDown_toNat, hadd, PageAligned]
  omega

/-- A page from `base` up to `cur`. -/
def PageBetween (base cur f : Word) : Prop :=
  PageAligned f ∧ base.toNat ≤ f.toNat ∧ f.toNat < cur.toNat

/-- The list `L` after the pages from `base` up to `cur` have been put on it, with
the memory `m` left alone everywhere else. -/
def Grown (b : Limine) (m : Mem) (L : List Word) (base cur : Word) (s : Pmm) : Prop :=
  ∃ L', FreeList b s L' ∧ s.pmmTotalPages.toNat = L'.length ∧
    (∀ x, pageOf x ∉ L' → s.mem x = m x) ∧ ∀ f, f ∈ L' ↔ f ∈ L ∨ PageBetween base cur f

theorem pageBetween_next {base cur f : Word} (hcur : PageAligned cur) (hle : base.toNat ≤ cur.toNat)
    (hnext : (cur + pageSize).toNat = cur.toNat + 4096) :
    PageBetween base (cur + pageSize) f ↔ f = cur ∨ PageBetween base cur f := by
  constructor
  · rintro ⟨h₁, h₂, h₃⟩
    by_cases hfc : f.toNat = cur.toNat
    · exact Or.inl (BitVec.eq_of_toNat_eq hfc)
    · refine Or.inr ⟨h₁, h₂, ?_⟩
      rw [PageAligned] at h₁ hcur
      omega
  · rintro (rfl | ⟨h₁, h₂, h₃⟩)
    · exact ⟨hcur, hle, by omega⟩
    · exact ⟨h₁, h₂, by omega⟩

/-- One round of the inner loop. -/
theorem Grown.step {m : Mem} {base cur : Word} (h : Grown b m L base cur s) (hcur : PageAligned cur)
    (hle : base.toNat ≤ cur.toNat) (hnext : (cur + pageSize).toNat = cur.toNat + 4096)
    (h0 : 0 ∉ L) (hnew : ∀ f, PageBetween base (cur + pageSize) f →
      f ∉ L ∧ f + b.hhdmOffset ≠ 0 ∧ f ≠ 0) :
    Grown b m L base (cur + pageSize) (pmmInitPage b s cur) := by
  obtain ⟨L', hL', htot, hkeep, hmem⟩ := h
  obtain ⟨hnL, hnull, hne⟩ := hnew cur ((pageBetween_next hcur hle hnext).mpr (Or.inl rfl))
  have hnL' : cur ∉ L' := by
    rw [hmem cur]
    rintro (hf | ⟨_, _, hf⟩)
    · exact hnL hf
    · exact lt_irrefl _ hf
  have hzero : (0 : Word) ∉ cur :: L' := by
    rw [List.mem_cons, hmem 0]
    rintro (hz | hz | hz)
    · exact hne hz.symm
    · exact h0 hz
    · exact (hnew 0 ((pageBetween_next hcur hle hnext).mpr (Or.inr hz))).2.2 rfl
  have hlen := length_lt_of_nodup (List.nodup_cons.mpr ⟨hnL', hL'.nodup⟩) hzero
  rw [List.length_cons] at hlen
  refine ⟨cur :: L', hL'.pmmInitPage hcur hnL' hnull hlen, ?_, fun x hx => ?_, fun f => ?_⟩
  · show (s.pmmTotalPages + 1).toNat = L'.length + 1
    rw [BitVec.toNat_add, htot]
    exact Nat.mod_eq_of_lt hlen
  · obtain ⟨hne, hxL⟩ := not_or.mp (fun h => hx (List.mem_cons.mpr h))
    rw [pmmInitPage_mem hcur hne]
    exact hkeep x hxL
  · rw [List.mem_cons, hmem f, pageBetween_next hcur hle hnext]
    exact or_left_comm

/-- The inner loop of `pmm_init` leaves through its own test and has then put
every page from `base` up to `last` on the list. -/
theorem pmmInitPages_spec {base last : Word} (hbase : PageAligned base) (hlast : PageAligned last)
    {m : Mem} (h : FreeList b s L) (htotal : s.pmmTotalPages.toNat = L.length)
    (hkeep : ∀ x, pageOf x ∉ L → s.mem x = m x) (h0 : 0 ∉ L)
    (hnew : ∀ f, PageBetween base last f → f ∉ L ∧ f + b.hhdmOffset ≠ 0 ∧ f ≠ 0) :
    ∃ r, whileFuel (fun r : Word × Pmm => decide (r.1 < last))
        (fun r => (r.1 + pageSize, pmmInitPage b r.2 r.1)) (2 ^ 52) (base, s) = some r ∧
      Grown b m L base last r.2 := by
  -- an empty region starts the loop above `last`, so the bound on `current` has two cases
  obtain ⟨⟨cur, s'⟩, hrun, ⟨hcur, hle, hub, hgrown⟩, hstop⟩ := whileFuel_spec
    (c := fun r : Word × Pmm => decide (r.1 < last))
    (f := fun r => (r.1 + pageSize, pmmInitPage b r.2 r.1))
    (fun r => PageAligned r.1 ∧ base.toNat ≤ r.1.toNat ∧ (r.1.toNat ≤ last.toNat ∨ r.1 = base) ∧
      Grown b m L base r.1 r.2)
    (fun r => (last.toNat - r.1.toNat) / 4096)
    (by
      rintro ⟨cur, s'⟩ ⟨hcur, hle, _, hgrown⟩ hlt
      simp only [decide_eq_true_eq, BitVec.lt_def] at hlt hle hcur hgrown ⊢
      have hal : cur.toNat + 4096 ≤ last.toNat := by
        rw [PageAligned] at hcur hlast
        omega
      have hnext : (cur + pageSize).toNat = cur.toNat + 4096 := by
        have := last.isLt
        rw [BitVec.toNat_add, show pageSize.toNat = 4096 from rfl]
        omega
      refine ⟨⟨?_, by omega, Or.inl (by omega), ?_⟩, by omega⟩
      · rw [PageAligned] at hcur ⊢
        omega
      · exact hgrown.step hcur hle hnext h0
          (fun f hf => hnew f ⟨hf.1, hf.2.1, by have := hf.2.2; omega⟩))
    (2 ^ 52) (base, s)
    ⟨hbase, le_rfl, Or.inr rfl, L, h, htotal, hkeep, fun f => ⟨Or.inl, fun hf =>
      hf.resolve_right (fun hp => absurd hp.2.2 (not_lt.mpr hp.2.1))⟩⟩
    (by have := last.isLt; simp only; omega)
  refine ⟨_, hrun, ?_⟩
  obtain ⟨L', hL', htot, hkeep', hmem⟩ := hgrown
  have hge : last.toNat ≤ cur.toNat := by simpa [BitVec.lt_def] using hstop
  refine ⟨L', hL', htot, hkeep', fun f => ?_⟩
  rw [hmem f]
  refine or_congr_right ⟨fun hf => ⟨hf.1, hf.2.1, ?_⟩, fun hf => ⟨hf.1, hf.2.1, ?_⟩⟩
  · obtain ⟨_, h₁, h₂⟩ := hf
    simp only at hub h₂
    rcases hub with hub | rfl
    · omega
    · omega
  · exact lt_of_lt_of_le hf.2.2 hge

/-- The list holds the frames of the usable entries `done`, both counters count it,
and the rest of the memory `m` is as it was. -/
def ListsFrames (b : Limine) (m : Mem) (done : List LimineMemmapEntry) (s : Pmm) : Prop :=
  ∃ L, FreeList b s L ∧ s.pmmTotalPages.toNat = L.length ∧
    (∀ x, pageOf x ∉ L → s.mem x = m x) ∧
    ∀ f, f ∈ L ↔ ∃ e ∈ done, e.type = limineMemmapUsable ∧ e.HasFrame f

theorem exists_mem_concat {α : Type*} {l : List α} {a : α} {P : α → Prop} :
    (∃ x ∈ l ++ [a], P x) ↔ (∃ x ∈ l, P x) ∨ P a := by
  simp [or_and_right, exists_or]

/-- One round of the outer loop of `pmm_init`. -/
theorem ListsFrames.entry (hb : b.Ok) {m : Mem} {done rest : List LimineMemmapEntry} {e : LimineMemmapEntry}
    (hsplit : b.entries = done ++ e :: rest) (h : ListsFrames b m done s) :
    ∃ s', pmmInitEntry b s e = some s' ∧ ListsFrames b m (done ++ [e]) s' := by
  obtain ⟨L, hL, htot, hkeep, hmem⟩ := h
  have hdone : ∀ e' ∈ done, e' ∈ b.entries := fun e' he' => by simp [hsplit, he']
  by_cases htype : e.type = limineMemmapUsable
  · have he : e ∈ b.entries := by simp [hsplit]
    have hframe := hasFrame_iff (hb.bounded e he htype)
    have husable : ∀ f, e.HasFrame f → b.UsableFrame f := fun f hf => ⟨e, he, htype, hf⟩
    have hdisj : ∀ f ∈ L, ¬ e.HasFrame f := by
      intro f hf hef
      obtain ⟨e', he', htype', hf'⟩ := (hmem f).mp hf
      have hpair := hb.disjoint
      rw [hsplit] at hpair
      have := (List.pairwise_append.mp hpair).2.2 e' he' e List.mem_cons_self htype' htype f.toNat
      exact this ⟨hf'.2.1, by have := hf'.2.2; omega⟩ ⟨hef.2.1, by have := hef.2.2; omega⟩
    have h0 : (0 : Word) ∉ L := by
      intro hz
      obtain ⟨e', he', htype', hf'⟩ := (hmem 0).mp hz
      exact hb.pageZero ⟨e', hdone e' he', htype', hf'⟩
    obtain ⟨r, hrun, L', hL', htot', hkeep', hmem'⟩ := pmmInitPages_spec (pageAligned_pageOf _)
      (pageAligned_pageOf _) hL htot hkeep h0 (fun f hf => by
        have hef : e.HasFrame f := (hframe f).mpr hf
        refine ⟨fun hfL => hdisj f hfL hef, hb.hhdm f (husable f hef), ?_⟩
        rintro rfl
        exact hb.pageZero (husable 0 hef))
    refine ⟨r.2, ?_, L', hL', htot', hkeep', fun f => ?_⟩
    · rw [pmmInitEntry, if_pos htype]
      exact congrArg (Option.map Prod.snd) hrun
    · rw [hmem' f, hmem f, exists_mem_concat, hframe f]
      exact or_congr_right (and_iff_right htype).symm
  · refine ⟨s, by rw [pmmInitEntry, if_neg htype], L, hL, htot, hkeep, fun f => ?_⟩
    rw [hmem f, exists_mem_concat]
    exact (or_iff_left (fun h => htype h.1)).symm

theorem ListsFrames.fold (hb : b.Ok) {m : Mem} {rest : List LimineMemmapEntry} :
    ∀ {done : List LimineMemmapEntry} {s : Pmm}, b.entries = done ++ rest →
      ListsFrames b m done s →
      ∃ s', rest.foldlM (pmmInitEntry b) s = some s' ∧ ListsFrames b m (done ++ rest) s' := by
  induction rest with
  | nil => intro done s _ h; exact ⟨s, rfl, by simpa using h⟩
  | cons e rest ih =>
    intro done s hsplit h
    obtain ⟨s₁, hrun, h₁⟩ := h.entry hb hsplit
    obtain ⟨s₂, hrun₂, h₂⟩ := ih (by simpa using hsplit) h₁
    refine ⟨s₂, ?_, by simpa using h₂⟩
    rw [List.foldlM_cons, hrun]
    exact hrun₂

/-- **`pmm_init` ends, and everything usable is then free.**  It writes to the
usable frames only. -/
theorem pmmInit_inv (hb : b.Ok) (mem : Mem) :
    ∃ s L, pmmInit b mem = some s ∧ PmmInv b s L [] ∧ ∀ x, pageOf x ∉ L → s.mem x = mem x := by
  have hstart : ListsFrames b mem [] ⟨mem, 0, 0, 0⟩ :=
    ⟨[], ⟨.nil, by simp, by simp, List.nodup_nil, rfl⟩, rfl, fun _ _ => rfl, by simp⟩
  obtain ⟨s, hrun, L, hL, htot, hkeep, hmem⟩ := hstart.fold hb (List.nil_append _).symm
  refine ⟨s, L, hrun, ⟨hL, by simpa using hL.nodup, fun f => ?_, by simpa using htot⟩, hkeep⟩
  rw [List.append_nil, hmem f]
  rfl

end AncoreOS.Mm
