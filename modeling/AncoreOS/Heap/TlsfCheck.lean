import AncoreOS.Heap.TlsfRun

/-!
# The heap's own checks

`tlsf_check` looks at the control structure and every list, and `tlsf_check_pool` walks the pool.  Both
find nothing wrong with a sound heap (`checks_pass`), and so at no point of a run
(`heap_run_checks`).

A loop that follows pointers takes a number of rounds, and one more than there are blocks is enough.
-/

namespace AncoreOS.Heap

open ByteMemory WordCells BlockTiling LinkedLists

/-! ### The code -/

/-- `tlsf_insist`, with the assertion in it. -/
def tlsfInsist (p : Prop) [Decidable p] (status : Int) : Option Int := do
  tlsfAssert p
  return if p then status else status - 1

/-- The loop over one list. -/
def checkBlocks (m : Mem) (control : Word) (i j : Nat) : Nat → Word → Int → Option Int
  | 0, _, _ => none
  | rounds + 1, block, status =>
    if block ≠ blockNull control then do
      let status ← tlsfInsist (blockIsFree m block) status
      let status ← tlsfInsist (¬blockIsPrevFree m block) status
      let next ← blockNext m block
      let status ← tlsfInsist (¬blockIsFree m next) status
      let status ← tlsfInsist (blockIsPrevFree m next) status
      let status ← tlsfInsist (blockSizeMin ≤ blockSize m block) status
      let status ← tlsfInsist (mappingInsert (blockSize m block) = (i, j)) status
      checkBlocks m control i j rounds (nextFree m block) status
    else
      some status

/-- The body of the loops over the indices. -/
def checkClass (m : Mem) (control : Word) (rounds i j : Nat) (status : Int) : Option Int := do
  let flMap := flBitmap m control &&& (1#32 <<< i)
  let slList := slBitmap m control i
  let slMap := slList &&& (1#32 <<< j)
  let block := blocks m control i j
  let status ← if flMap = 0 then tlsfInsist (slMap = 0) status else some status
  if slMap = 0 then
    tlsfInsist (block = blockNull control) status
  else
    let status ← tlsfInsist (slList ≠ 0) status
    let status ← tlsfInsist (block ≠ blockNull control) status
    checkBlocks m control i j rounds block status

def tlsfCheck (rounds : Nat) (m : Mem) (tlsf : Word) : Option Int :=
  (List.range flIndexCount).foldlM (fun status i =>
    (List.range slIndexCount).foldlM (fun status j => checkClass m tlsf rounds i j status) status) 0

/-- The walker gets the pointer, the size, and whether the block is used. -/
def walkBlocks {σ : Type} (walker : Word → Word → Bool → σ → Option σ) (m : Mem) :
    Nat → Word → σ → Option σ
  | 0, _, _ => none
  | rounds + 1, block, user =>
    if block ≠ 0 ∧ ¬blockIsLast m block then do
      let user ← walker (blockToPtr block) (blockSize m block) (decide ¬blockIsFree m block) user
      let next ← blockNext m block
      walkBlocks walker m rounds next user
    else
      some user

def tlsfWalkPool {σ : Type} (rounds : Nat) (m : Mem) (pool : Word)
    (walker : Word → Word → Bool → σ → Option σ) (user : σ) : Option σ :=
  walkBlocks walker m rounds (offsetToBlock pool (-blockHeaderOverhead)) user

structure Integrity where
  prevStatus : Bool
  status : Int

def integrityWalker (m : Mem) (ptr size : Word) (_used : Bool) (integ : Integrity) :
    Option Integrity := do
  let block := blockFromPtr ptr
  let thisPrevStatus := decide (blockIsPrevFree m block)
  let thisStatus := decide (blockIsFree m block)
  let thisBlockSize := blockSize m block
  let status ← tlsfInsist (integ.prevStatus = thisPrevStatus) 0
  let status ← tlsfInsist (size = thisBlockSize) status
  return { prevStatus := thisStatus, status := integ.status + status }

def tlsfCheckPool (rounds : Nat) (m : Mem) (pool : Word) : Option Int := do
  let integ ← tlsfWalkPool rounds m pool (integrityWalker m) { prevStatus := false, status := 0 }
  return integ.status

/-! ### The lists -/

variable {m : Mem} {c s e i j k n rounds x before : Nat} {l p r : List Block} {b : Block}
  {ls : List Nat}

theorem tlsfInsist_of {p : Prop} [Decidable p] (h : p) (status : Int) : tlsfInsist p status = some status := by
  simp [tlsfInsist, tlsfAssert, h]

/-- What the loop insists on. -/
structure Checked (m : Mem) (i j : Nat) (x : Nat) : Prop where
  free : blockIsFree m (BitVec.ofNat 64 x)
  prev : ¬blockIsPrevFree m (BitVec.ofNat 64 x)
  next : ∃ y, blockNext m (BitVec.ofNat 64 x) = some y ∧ ¬blockIsFree m y ∧ blockIsPrevFree m y
  size : blockSizeMin ≤ blockSize m (BitVec.ofNat 64 x)
  indices : mappingInsert (blockSize m (BitVec.ofNat 64 x)) = (i, j)

theorem checkBlocks_eq (hlink : Linked (nextOf m) (prevOf m) c before ls)
    (hgood : ∀ x ∈ ls, Checked m i j x ∧ BitVec.ofNat 64 x ≠ BitVec.ofNat 64 c)
    (hrounds : ls.length < rounds) (status : Int) :
    checkBlocks m (BitVec.ofNat 64 c) i j rounds (BitVec.ofNat 64 (ls.headD c)) status = some status := by
  induction ls generalizing before rounds with
  | nil =>
    obtain ⟨rounds, rfl⟩ : ∃ k, rounds = k + 1 := ⟨rounds - 1, by rw [List.length_nil] at hrounds; omega⟩
    simp [checkBlocks, blockNull]
  | cons x ls ih =>
    obtain ⟨rounds, rfl⟩ : ∃ k, rounds = k + 1 := ⟨rounds - 1, by omega⟩
    obtain ⟨-, hnext, hrest⟩ := hlink
    obtain ⟨⟨hfree, hprev, ⟨y, hy, hyfree, hyprev⟩, hsize, hidx⟩, hne⟩ := hgood x List.mem_cons_self
    have hnext' : nextFree m (BitVec.ofNat 64 x) = BitVec.ofNat 64 (ls.headD c) := by
      rw [nextFree_ofNat]
      exact eq_ofNat_of_toNat hnext
    rw [List.length_cons] at hrounds
    have hne' : BitVec.ofNat 64 x ≠ blockNull (BitVec.ofNat 64 c) := hne
    rw [List.headD_cons, checkBlocks, if_pos hne']
    simp only [tlsfInsist_of hfree, tlsfInsist_of hprev, hy, tlsfInsist_of hyfree, tlsfInsist_of hyprev,
      tlsfInsist_of hsize, tlsfInsist_of hidx, hnext', Option.bind_eq_bind, Option.bind_some]
    exact ih hrest (fun z hz => hgood z (List.mem_cons_of_mem x hz)) (by omega)

theorem Sound.checked (h : Sound m c s e l) (hb : b ∈ l) (hfree : b.free = true) :
    Checked m (sizeClass b.size / 32) (sizeClass b.size % 32) b.addr := by
  have hs := h.arena.row.sized hb
  have hidx := mappingInsert_of_block h.arena.row hb
  obtain ⟨p, r, rfl⟩ := List.append_of_mem hb
  obtain ⟨htag, hnext, hn8⟩ := h.arena.row.around
  obtain ⟨-, hends, hstarts, -⟩ := (coalesced_free hfree).mp h.coalesced
  have hlast : lastIsFree p = false := by
    unfold lastIsFree
    cases hp : p.getLast? with
    | none => rfl
    | some q => exact hends q hp
  have hhead : nextIsFree r = false := by
    unfold nextIsFree
    cases hr : r.head? with
    | none => rfl
    | some q => exact hstarts q hr
  refine ⟨(blockIsFree_of_tag htag hs.1).mpr hfree, ?_, ⟨_, blockNext_of_tag htag hs, ?_, ?_⟩, ?_, hidx⟩
  · rw [blockIsPrevFree_of_tag htag hs.1, hlast]
    simp
  · rw [show b.addr + 8 + b.size = b.stop 8 from rfl, blockIsFree_of_tag hnext hn8, hhead]
    simp
  · rw [show b.addr + 8 + b.size = b.stop 8 from rfl, blockIsPrevFree_of_tag hnext hn8]
    exact hfree
  · rw [blockSize_of_tag htag hs.1, show blockSizeMin = BitVec.ofNat 64 24 from rfl,
      ofNat_le_iff (by omega) (by omega)]
    exact hs.2.1

theorem and_one_shiftLeft_eq_zero {w : BitVec 32} (hn : n < 32) :
    w &&& (1#32 <<< n) = 0 ↔ w.getLsbD n = false := by
  constructor
  · intro h
    have hbit := congrArg (BitVec.getLsbD · n) h
    simpa [one_shiftLeft_getLsbD hn] using hbit
  · intro h
    refine BitVec.eq_of_getLsbD_eq fun i hi => ?_
    rw [BitVec.getLsbD_and, one_shiftLeft_getLsbD hn]
    by_cases hin : i = n
    · subst hin
      simp [h]
    · simp [hin]

theorem Sound.checkClass (h : Sound m c s e l) (hi : i < 25) (hj : j < 32) (hrounds : l.length < rounds)
    (status : Int) : checkClass m (BitVec.ofNat 64 c) rounds i j status = some status := by
  obtain ⟨lists, ⟨hthreads, hmarks⟩, hmem⟩ := h.arena.lists
  have hn : 32 * i + j < 800 := by omega
  have hspaced := h.arena.spaced
  have hfits := hspaced.fits
  have hnode : ∀ x ∈ lists (32 * i + j), ∃ b ∈ l, b.addr = x ∧ Checked m i j x ∧
      BitVec.ofNat 64 x ≠ BitVec.ofNat 64 c := by
    intro x hx
    obtain ⟨b, hb, hfree, rfl, hcls, -⟩ := (hmem _ hn x).mp hx
    have hchecked := h.checked hb hfree
    rw [hcls, show (32 * i + j) / 32 = i by omega, show (32 * i + j) % 32 = j by omega] at hchecked
    refine ⟨b, hb, rfl, hchecked, ?_⟩
    have habove := hspaced.above b.addr ⟨b, hb, hfree, rfl⟩
    have hbelow := hspaced.below b.addr ⟨b, hb, hfree, rfl⟩
    rw [ne_eq, ofNat_eq_iff (by omega) (by omega)]
    omega
  have hlen : (lists (32 * i + j)).length ≤ l.length := by
    rw [← List.length_map (f := Block.addr)]
    refine ((hthreads.nodup _ hn).subperm fun x hx => ?_).length_le
    obtain ⟨b, hb, rfl, -⟩ := hnode x hx
    exact List.mem_map_of_mem hb
  have hblock : blocks m (BitVec.ofNat 64 c) i j = BitVec.ofNat 64 ((lists (32 * i + j)).headD c) := by
    have hb := blocks_ofNat m c (32 * i + j)
    rw [show (32 * i + j) / 32 = i by omega, show (32 * i + j) % 32 = j by omega] at hb
    rw [hb, hthreads.head _ hn]
  have hfirst : half m (c + 32) &&& (1#32 <<< i) = 0 ↔ half m (c + (36 + 4 * i)) = 0 := by
    rw [and_one_shiftLeft_eq_zero (by omega), hmarks.first i (by omega)]
    simp [hi]
  have hsecond : half m (c + (36 + 4 * i)) &&& (1#32 <<< j) = 0 ↔ lists (32 * i + j) = [] := by
    rw [and_one_shiftLeft_eq_zero hj, hmarks.second i hi j hj]
    simp
  -- What follows the comparison of the two levels.
  have hlist : (if half m (c + (36 + 4 * i)) &&& (1#32 <<< j) = 0 then
      tlsfInsist (BitVec.ofNat 64 ((lists (32 * i + j)).headD c) = blockNull (BitVec.ofNat 64 c)) status
    else (tlsfInsist (half m (c + (36 + 4 * i)) ≠ 0) status).bind fun status =>
      (tlsfInsist (BitVec.ofNat 64 ((lists (32 * i + j)).headD c) ≠ blockNull (BitVec.ofNat 64 c)) status).bind
        fun status => checkBlocks m (BitVec.ofNat 64 c) i j rounds
          (BitVec.ofNat 64 ((lists (32 * i + j)).headD c)) status) = some status := by
    by_cases hempty : lists (32 * i + j) = []
    · rw [if_pos (hsecond.mpr hempty), hempty]
      have hnull : BitVec.ofNat 64 (([] : List Nat).headD c) = blockNull (BitVec.ofNat 64 c) := rfl
      exact tlsfInsist_of hnull status
    · have hhead : (lists (32 * i + j)).headD c ∈ lists (32 * i + j) :=
        (headD_cases _ c).resolve_left fun hnull => hempty hnull.2
      obtain ⟨-, -, -, -, hne⟩ := hnode _ hhead
      have hne' : BitVec.ofNat 64 ((lists (32 * i + j)).headD c) ≠ blockNull (BitVec.ofNat 64 c) := hne
      have hrow : half m (c + (36 + 4 * i)) ≠ 0 := by
        intro hzero
        rw [hzero] at hsecond
        exact hempty (hsecond.mp (by simp))
      rw [if_neg (fun hzero => hempty (hsecond.mp hzero)), tlsfInsist_of hrow, Option.bind_some,
        tlsfInsist_of hne', Option.bind_some]
      refine checkBlocks_eq (hthreads.links _ hn) (fun x hx => ?_) (hlen.trans_lt hrounds) status
      obtain ⟨-, -, -, hchecked, hxc⟩ := hnode x hx
      exact ⟨hchecked, hxc⟩
  unfold Heap.checkClass
  simp only [flBitmap_ofNat, slBitmap_ofNat, hblock, Option.bind_eq_bind]
  split
  · rename_i hzero
    rw [tlsfInsist_of (by rw [hfirst.mp hzero]; simp), Option.bind_some]
    exact hlist
  · exact hlist

theorem foldlM_fixed {α β : Type} {f : β → α → Option β} {b : β} {l : List α}
    (h : ∀ x ∈ l, f b x = some b) : l.foldlM f b = some b := by
  induction l with
  | nil => rfl
  | cons x l ih =>
    rw [List.foldlM_cons, h x List.mem_cons_self]
    exact ih fun y hy => h y (List.mem_cons_of_mem x hy)

theorem Sound.check (h : Sound m c s e l) (hrounds : l.length < rounds) :
    tlsfCheck rounds m (BitVec.ofNat 64 c) = some 0 := by
  refine foldlM_fixed fun i hi => foldlM_fixed fun j hj => ?_
  exact h.checkClass (List.mem_range.mp hi) (List.mem_range.mp hj) hrounds 0

/-! ### The walk -/

/-- **A walk visits the blocks of the row, one after the other.** -/
theorem walkBlocks_eq {σ : Type} (walker : Word → Word → Bool → σ → Option σ) {a : Nat} {prev last : Bool}
    (hseg : Seg m a prev l e last) (hend : word m (e + 8) = tag 0 false last) (ha : 0 < a)
    (he : e < 2 ^ 64) (hrounds : l.length < rounds) (user : σ) :
    walkBlocks walker m rounds (BitVec.ofNat 64 a) user = l.foldlM (fun user b =>
      walker (BitVec.ofNat 64 (b.addr + 16)) (BitVec.ofNat 64 b.size) (!b.free) user) user := by
  induction l generalizing a prev rounds user with
  | nil =>
    obtain ⟨rounds, rfl⟩ : ∃ k, rounds = k + 1 := ⟨rounds - 1, by rw [List.length_nil] at hrounds; omega⟩
    obtain ⟨rfl, rfl⟩ := hseg
    have hlast : blockIsLast m (BitVec.ofNat 64 a) :=
      (blockIsLast_of_tag hend rfl (by decide)).mpr rfl
    rw [walkBlocks, if_neg (fun h => h.2 hlast)]
    rfl
  | cons b l ih =>
    obtain ⟨rounds, rfl⟩ : ∃ k, rounds = k + 1 := ⟨rounds - 1, by omega⟩
    obtain ⟨⟨rfl, hs, htag, -⟩, hrest⟩ := hseg
    have hle := hrest.tiles.le
    rw [Block.stop] at hle
    have hne : BitVec.ofNat 64 b.addr ≠ 0 := ofNat_ne_zero (by omega) (by omega)
    have hlast : ¬blockIsLast m (BitVec.ofNat 64 b.addr) := by
      rw [blockIsLast_of_tag htag hs.1 hs.2.2]
      omega
    have hused : decide (¬blockIsFree m (BitVec.ofNat 64 b.addr)) = !b.free := by
      rw [Bool.eq_iff_iff, decide_eq_true_iff, blockIsFree_of_tag htag hs.1]
      simp
    rw [List.length_cons] at hrounds
    rw [walkBlocks, if_pos ⟨hne, hlast⟩, List.foldlM_cons, blockToPtr_ofNat, blockSize_of_tag htag hs.1,
      hused, blockNext_of_tag htag hs]
    simp only [Option.bind_eq_bind, Option.bind_some]
    have hrounds' : l.length < rounds := by omega
    exact congrArg (Option.bind _) (funext fun user =>
      ih hrest (by rw [Block.stop]; omega) hrounds' user)

theorem integrity_row {a : Nat} {prev last : Bool} (hseg : Seg m a prev l e last) (status : Int) :
    l.foldlM (fun user b => integrityWalker m (BitVec.ofNat 64 (b.addr + 16)) (BitVec.ofNat 64 b.size)
      (!b.free) user) { prevStatus := prev, status := status } =
      some { prevStatus := last, status := status } := by
  induction l generalizing a prev with
  | nil =>
    obtain ⟨-, rfl⟩ := hseg
    rfl
  | cons b l ih =>
    obtain ⟨⟨rfl, hs, htag, -⟩, hrest⟩ := hseg
    have hprev : prev = decide (blockIsPrevFree m (BitVec.ofNat 64 b.addr)) := by
      rw [Bool.eq_iff_iff, decide_eq_true_iff, blockIsPrevFree_of_tag htag hs.1]
    have hfree : decide (blockIsFree m (BitVec.ofNat 64 b.addr)) = b.free := by
      rw [Bool.eq_iff_iff, decide_eq_true_iff, blockIsFree_of_tag htag hs.1]
    have hwalk : integrityWalker m (BitVec.ofNat 64 (b.addr + 16)) (BitVec.ofNat 64 b.size) (!b.free)
        { prevStatus := prev, status := status } = some { prevStatus := b.free, status := status } := by
      unfold integrityWalker
      dsimp only
      simp only [blockFromPtr_ofNat, blockSize_of_tag htag hs.1, tlsfInsist_of hprev, hfree,
        Option.bind_eq_bind, Option.bind_some]
      rw [tlsfInsist_of trivial, Option.bind_some]
      simp
    rw [List.foldlM_cons, hwalk]
    exact ih hrest

theorem Sound.checkPool (h : Sound m c s e l) (hrounds : l.length < rounds) :
    tlsfCheckPool rounds m (BitVec.ofNat 64 (s + 8)) = some 0 := by
  obtain ⟨-, hstop, -, last, hseg, hend⟩ := h.arena.row
  have hpos := h.arena.control_pos
  have hle := h.arena.control_le
  have hblock : offsetToBlock (BitVec.ofNat 64 (s + 8)) (-blockHeaderOverhead) = BitVec.ofNat 64 s := by
    rw [offsetToBlock, BitVec.ofNat_add, BitVec.add_assoc]
    exact BitVec.add_zero _
  unfold tlsfCheckPool tlsfWalkPool
  rw [hblock, walkBlocks_eq _ hseg hend (by omega) (by omega) hrounds, integrity_row hseg]
  rfl

/-- **At no point of a run do the heap's own checks find anything.** -/
theorem heap_run_checks {a bytes : Nat} (hr : Region a bytes) (m : Mem) :
    ∃ m₁, tlsfCreateWithPool m (BitVec.ofNat 64 a) (BitVec.ofNat 64 bytes) =
        some (BitVec.ofNat 64 a, m₁) ∧
      ∀ calls m' held', AllowedRun (BitVec.ofNat 64 a) calls m₁ (fun _ => none) →
        run (BitVec.ofNat 64 a) calls m₁ (fun _ => none) = some (m', held') →
        ∃ enough, ∀ rounds ≥ enough, tlsfCheck rounds m' (BitVec.ofNat 64 a) = some 0 ∧
          tlsfCheckPool rounds m' (BitVec.ofNat 64 (a + 6536)) = some 0 := by
  obtain ⟨m₁, hcreate, hsound, -⟩ := create_sound hr.aligned hr.pos hr.large hr.indexed hr.fits m
  refine ⟨m₁, hcreate, fun calls m' held' hok hrun => ?_⟩
  obtain ⟨m₂, held₂, l', hrun', hs', -, -⟩ := run_serves hsound (serves_new m₁ _ _) hok
  rw [hrun] at hrun'
  obtain ⟨rfl, rfl⟩ := Prod.mk.inj (Option.some.inj hrun')
  exact ⟨l'.length + 1, fun rounds hrounds => ⟨hs'.check (by omega), hs'.checkPool (by omega)⟩⟩

theorem heap_run_checks_kernel : ∃ m' rounds,
    (tlsfCreateWithPool (fun _ => 0) (BitVec.ofNat 64 0x200000) (BitVec.ofNat 64 kernelHeapSize)).bind
      (fun a => run (BitVec.ofNat 64 0x200000) kernelCalls a.2 (fun _ => none)) = some (m', fun _ => none) ∧
    tlsfCheck rounds m' (BitVec.ofNat 64 0x200000) = some 0 ∧
    tlsfCheckPool rounds m' (BitVec.ofNat 64 0x201988) = some 0 := by
  obtain ⟨m₁, hcreate, hchecks⟩ := heap_run_checks region_kernelHeap (fun _ => 0)
  obtain ⟨m₂, hcreate₂, hsound⟩ := kernelHeap_sound
  rw [hcreate] at hcreate₂
  obtain rfl : m₁ = m₂ := congrArg Prod.snd (Option.some.inj hcreate₂)
  obtain ⟨hok, m', hrun⟩ := kernelCalls_allowed hsound
  obtain ⟨enough, hcheck⟩ := hchecks kernelCalls m' _ hok hrun
  refine ⟨m', enough, ?_, hcheck enough le_rfl⟩
  rw [hcreate]
  exact hrun

end AncoreOS.Heap
