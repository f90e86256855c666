import AncoreOS.Heap.TlsfRun

/-!
# Which requests are met

The search begins at the class of which every block is large enough, so `tlsf_malloc` may give `NULL`
although a block would do.  `fitSize` is the least size from which on a free block is found, and it
is less than one part in 32 above the request (`malloc_good_fit`).

The seven sizes just below `2 ^ 64` are rounded up to zero, and then to the least block there is
(`malloc_covers_iff`).
-/

namespace AncoreOS.Heap

open ByteMemory WordCells BlockTiling SizeClasses

variable {m m' : Mem} {c s e n : Nat} {l : List Block} {b : Block}

/-- The least size of which the search takes every block. -/
def fitSize (n : Nat) : Nat := 8 * value 5 (searchClass n)

theorem le_fitSize (h8 : n % 8 = 0) : n ≤ fitSize n := by
  have hup : n / 8 ≤ value 5 (searchClass n) := le_value_codeUp 5 (n / 8)
  unfold fitSize
  omega

theorem fitSize_le (n : Nat) : fitSize n ≤ n + n / 32 := by
  have hup : value 5 (searchClass n) ≤ n / 8 + n / 8 / 2 ^ 5 := value_codeUp_le 5 (n / 8)
  unfold fitSize
  omega

theorem fitSize_le_iff {t : Nat} (ht : t % 8 = 0) : fitSize n ≤ t ↔ searchClass n ≤ sizeClass t :=
  (searchClass_le_iff ht).symm

theorem noFit_iff (h : Sound m c s e l) :
    NoFit l n ↔ n = 0 ∨ ∀ b ∈ l, b.free = true → b.size < fitSize n := by
  refine or_congr_right (forall₂_congr fun b hb => imp_congr_right fun _ => ?_)
  rw [← not_le, ← not_le, fitSize_le_iff (h.arena.row.sized hb).1]

theorem malloc_null_iff (h : Sound m c s e l) (size : Word) :
    tlsfMalloc m (BitVec.ofNat 64 c) size = some (0, m) ↔ NoFit l (adjusted size.toNat) := by
  constructor
  · intro hnull
    rcases h.malloc size with ⟨-, hno⟩ | ⟨p, b, r, m', rfl, -, -, -, heq, -⟩
    · exact hno
    · rw [heq] at hnull
      have hlt := h.arena.row.addr_lt (b := b) (by simp)
      have hzero := congrArg Prod.fst (Option.some.inj hnull)
      exact absurd hzero (ofNat_ne_zero (by omega) (by omega))
  · intro hno
    rcases h.malloc size with ⟨hnull, -⟩ | ⟨p, b, r, m', rfl, hn, hfits, -⟩
    · exact hnull
    · rcases hno with hzero | hno
      · exact absurd hzero hn
      · exact absurd hfits.large (not_le.mpr (hno b hfits.mem hfits.free))

/-- **`tlsf_malloc` gives `NULL` exactly if no free block reaches the size that it looks for**, which is
less than one part in 32 above the request.  Otherwise it takes a block of the least class that will
do. -/
theorem malloc_good_fit (h : Sound m c s e l) (size : Word) :
    (tlsfMalloc m (BitVec.ofNat 64 c) size = some (0, m) ↔ adjusted size.toNat = 0 ∨
      ∀ b ∈ l, b.free = true → b.size < fitSize (adjusted size.toNat)) ∧
    adjusted size.toNat ≤ fitSize (adjusted size.toNat) ∧
    fitSize (adjusted size.toNat) ≤ adjusted size.toNat + adjusted size.toNat / 32 ∧
    ∀ p m', tlsfMalloc m (BitVec.ofNat 64 c) size = some (p, m') → p ≠ 0 →
      ∃ b ∈ l, b.free = true ∧ p = BitVec.ofNat 64 (b.addr + 16) ∧ adjusted size.toNat ≤ b.size ∧
        ∀ d ∈ l, d.free = true → fitSize (adjusted size.toNat) ≤ d.size →
          sizeClass b.size ≤ sizeClass d.size := by
  refine ⟨(malloc_null_iff h size).trans (noFit_iff h), le_fitSize (adjusted_mod _), fitSize_le _, ?_⟩
  intro p m' heq hp
  rcases h.malloc size with ⟨hnull, -⟩ | ⟨p', b, r, m'', rfl, -, hfits, hle, hsome, -⟩
  · rw [hnull] at heq
    exact absurd (congrArg Prod.fst (Option.some.inj heq)).symm hp
  · rw [hsome] at heq
    refine ⟨b, hfits.mem, hfits.free, (congrArg Prod.fst (Option.some.inj heq)).symm, hle,
      fun d hd hdf hdn => ?_⟩
    exact hfits.least d hd hdf ((fitSize_le_iff (h.arena.row.sized hd).1).mp hdn)

/-- The kernel heap has no block of its own size. -/
theorem malloc_good_fit_kernel : ∃ m, tlsfMalloc m (BitVec.ofNat 64 0x200000) 0x100000#64 = some (0, m) := by
  obtain ⟨m, -, hsound⟩ := kernelHeap_sound
  refine ⟨m, (malloc_good_fit hsound 0x100000#64).1.mpr (Or.inr fun b hb _ => ?_)⟩
  rw [List.mem_singleton.mp hb]
  decide

/-- **The block that `tlsf_malloc` gives is as large as the request, unless the request is one of the
last seven sizes.** -/
theorem malloc_covers_iff (h : Sound m c s e l) {size p : Word}
    (heq : tlsfMalloc m (BitVec.ofNat 64 c) size = some (p, m')) (hp : p ≠ 0) :
    (∃ l' d, Sound m' c s e l' ∧ d ∈ usedOf l' ∧ p = BitVec.ofNat 64 (d.addr + 16) ∧
      size.toNat ≤ d.size) ↔ size.toNat ≤ 2 ^ 64 - 8 := by
  rcases h.malloc_given size with ⟨hnull, -⟩ | ⟨d, m₁, l₁, hsome, h₁, hn, hnd, hg⟩
  · rw [hnull] at heq
    exact absurd (congrArg Prod.fst (Option.some.inj heq)).symm hp
  · rw [hsome] at heq
    obtain ⟨rfl, rfl⟩ := Prod.mk.inj (Option.some.inj heq)
    constructor
    · rintro ⟨l', q, hs', hq, -, hle⟩
      have hlt := (hs'.arena.row.sized (mem_usedOf.mp hq).1).2.2
      omega
    · intro hsize
      exact ⟨l₁, d, h₁, (hg.mem_iff d).mpr (Or.inl rfl), rfl, (le_adjusted hn hsize).trans hnd⟩

/-- The kernel heap meets a request for nearly all addresses there are. -/
theorem malloc_covers_iff_kernel : ∃ m p m', tlsfMalloc m (BitVec.ofNat 64 0x200000) (-7#64) = some (p, m') ∧
    p ≠ 0 ∧ ¬∃ l' d, Sound m' 0x200000 0x201980 0x2ffff0 l' ∧ d ∈ usedOf l' ∧
      p = BitVec.ofNat 64 (d.addr + 16) ∧ (-7#64).toNat ≤ d.size := by
  obtain ⟨m, -, hsound⟩ := kernelHeap_sound
  obtain ⟨m', heq⟩ := malloc_of_single hsound rfl (-7#64)
  rw [if_neg (by decide)] at heq
  have hne : BitVec.ofNat 64 ((poolBlock 0x201980 0xfe678).addr + 16) ≠ (0 : Word) := by decide
  exact ⟨m, _, m', heq, hne, fun hcovers => absurd ((malloc_covers_iff hsound heq hne).mp hcovers) (by decide)⟩

/-- **When everything is freed again, the heap is one free block, and answers every request as it did
in the beginning.** -/
theorem freed_heap_is_new {a bytes : Nat} (hr : Region a bytes) (m : Mem) :
    ∃ m₁, tlsfCreateWithPool m (BitVec.ofNat 64 a) (BitVec.ofNat 64 bytes) =
        some (BitVec.ofNat 64 a, m₁) ∧
      ∀ calls m', AllowedRun (BitVec.ofNat 64 a) calls m₁ (fun _ => none) →
        run (BitVec.ofNat 64 a) calls m₁ (fun _ => none) = some (m', fun _ => none) →
        Sound m' a (a + 6528) (a + 6536 + poolBytes (bytes - 6536)) [poolBlock (a + 6528) (bytes - 6536)] ∧
        ∀ size, (tlsfMalloc m' (BitVec.ofNat 64 a) size).map Prod.fst =
          (tlsfMalloc m₁ (BitVec.ofNat 64 a) size).map Prod.fst := by
  obtain ⟨m₁, hcreate, hsound, -⟩ := create_sound hr.aligned hr.pos hr.large hr.indexed hr.fits m
  refine ⟨m₁, hcreate, fun calls m' hok hrun => ?_⟩
  obtain ⟨m₂, held₂, l', hrun', hs', h', -⟩ := run_serves hsound (serves_new m₁ _ _) hok
  rw [hrun] at hrun'
  obtain ⟨rfl, rfl⟩ := Prod.mk.inj (Option.some.inj hrun')
  have hl := h'.of_nothing hs' (by omega)
  have hsize : a + 6536 + poolBytes (bytes - 6536) - (a + 6528) - 8 = poolBytes (bytes - 6536) := by omega
  have hblock : Block.mk (a + 6528) (a + 6536 + poolBytes (bytes - 6536) - (a + 6528) - 8) true =
      poolBlock (a + 6528) (bytes - 6536) := by
    rw [hsize, poolBlock]
  rw [hblock] at hl
  subst hl
  refine ⟨hs', fun size => ?_⟩
  obtain ⟨m₃, h₃⟩ := malloc_of_single hs' rfl size
  obtain ⟨m₄, h₄⟩ := malloc_of_single hsound rfl size
  rw [h₃, h₄]
  rfl

theorem freed_heap_is_new_kernel : ∃ m₁ m', tlsfCreateWithPool (fun _ => 0) (BitVec.ofNat 64 0x200000)
      (BitVec.ofNat 64 kernelHeapSize) = some (BitVec.ofNat 64 0x200000, m₁) ∧
    run (BitVec.ofNat 64 0x200000) kernelCalls m₁ (fun _ => none) = some (m', fun _ => none) ∧
    (tlsfMalloc m' (BitVec.ofNat 64 0x200000) 0x80000#64).map Prod.fst =
      (tlsfMalloc m₁ (BitVec.ofNat 64 0x200000) 0x80000#64).map Prod.fst := by
  obtain ⟨m₁, hcreate, hnew⟩ := freed_heap_is_new region_kernelHeap (fun _ => 0)
  obtain ⟨m₂, hcreate₂, hsound⟩ := kernelHeap_sound
  rw [hcreate] at hcreate₂
  obtain rfl : m₁ = m₂ := congrArg Prod.snd (Option.some.inj hcreate₂)
  obtain ⟨hok, m', hrun⟩ := kernelCalls_allowed hsound
  exact ⟨m₁, m', hcreate, hrun, (hnew kernelCalls m' hok hrun).2 0x80000#64⟩

end AncoreOS.Heap
