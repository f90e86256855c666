import AncoreOS.Mm.VmmTree

/-!
# Going down the page tables

`Sound b dec s L out` joins the tables to the allocator: the allocator's
invariant holds, the tables form a tree of page-aligned frames, and no table is
on the free list.  `descend` is the three calls of `nextTable` that `map_page`
makes, on any list of indices.  `descend_spec` says what they do on a path where
the kernel's mask reads every entry as the decoder does (`Clean`) and where
there are frames enough (`needed`): the tables of the path exist afterwards,
nothing is lost and no translation changes (`Grows`).
-/

namespace AncoreOS.Mm

open ByteMemory Radix

variable {b : Limine} {dec : Nat → Word → Option Word} {s s' s'' : Vmm}
  {L L' L'' out out' out'' : List Word} {f g u : Word} {i : BitVec 9}

namespace Vmm

/-- The frame of the PML4. -/
def root (b : Limine) (s : Vmm) : Word := b.deref s.kernelPml4

/-- The entries of the tables in memory. -/
def ent (s : Vmm) (f : Word) (i : BitVec 9) : Word := slot s.pmm.mem f i

/-- The table reached along a path of indices. -/
def node (b : Limine) (dec : Nat → Word → Option Word) (s : Vmm) (p : List (BitVec 9)) :
    Option Word :=
  Radix.node dec s.ent (s.root b) p

/-- The translation found along the path of a virtual address. -/
def find (b : Limine) (dec : Nat → Word → Option Word) (s : Vmm) (p : List (BitVec 9)) :
    Option (Nat × Word) :=
  Radix.find isPresent dec s.ent (s.root b) p

end Vmm

/-- The tables are a tree of frames that the allocator does not list. -/
structure Sound (b : Limine) (dec : Nat → Word → Option Word) (s : Vmm) (L out : List Word) :
    Prop where
  pmm : PmmInv b s.pmm L out
  off : s.hhdmOffset = b.hhdmOffset
  tree : IsTree 3 dec s.ent (s.root b)
  aligned : ∀ p f, p.length ≤ 3 → s.node b dec p = some f → PageAligned f
  apart : ∀ p f, p.length ≤ 3 → s.node b dec p = some f → f ∉ L

/-! ### The state `vmm_init` leaves -/

/-- The virtual memory manager right after `vmm_init`. -/
def vmmStart (b : Limine) (pmm : Pmm) (cr3 : Word) : Vmm := Vmm.vmmInit b ⟨pmm, 0, 0, []⟩ cr3

/-- `cr3` names a blank PML4 in a frame that the allocator does not list. -/
structure VmmStart (b : Limine) (pmm : Pmm) (cr3 : Word) (L out : List Word) : Prop where
  inv : PmmInv b pmm L out
  blank : ∀ i, slot pmm.mem (pageOf cr3) i = 0
  apart : pageOf cr3 ∉ L

theorem vmmStart_root (b : Limine) (pmm : Pmm) (cr3 : Word) :
    (vmmStart b pmm cr3).root b = pageOf cr3 := b.deref_add (pageOf cr3)

theorem vmmStart_ent (b : Limine) (pmm : Pmm) (cr3 : Word) :
    (vmmStart b pmm cr3).ent = slot pmm.mem := rfl

/-- `pmm_init` leaves such an allocator when the PML4 is blank and not in usable
memory. -/
theorem exists_vmmStart (hb : b.Ok) {mem : Mem} {cr3 : Word}
    (hblank : ∀ x, pageOf x = pageOf cr3 → mem x = 0) (hcr3 : ¬ b.UsableFrame (pageOf cr3)) :
    ∃ pmm L, pmmInit b mem = some pmm ∧ VmmStart b pmm cr3 L [] := by
  obtain ⟨pmm, L, hinit, hinv, hkeep⟩ := pmmInit_inv hb mem
  have hL : pageOf cr3 ∉ L := fun h => hcr3 ((hinv.usable _).mpr (List.mem_append_left [] h))
  refine ⟨pmm, L, hinit, hinv, fun i => load64_eq_zero (fun x hx => ?_), hL⟩
  have hpage := pageOf_of_slot (pageAligned_pageOf cr3) hx
  rw [hkeep x (by rw [hpage]; exact hL), hblank x hpage]

/-! ### One level -/

theorem Vmm.kernelPml4_eq (s : Vmm) (b : Limine) : s.kernelPml4 = s.root b + b.hhdmOffset := by
  rw [Vmm.root, Limine.deref]
  bv_omega

theorem Vmm.entry_eq (s : Vmm) (f : Word) (i : BitVec 9) :
    s.entry b (f + b.hhdmOffset) (i.setWidth 64) = s.ent f i := by
  rw [Vmm.entry, Vmm.ent, slot, Limine.deref]
  congr 1
  bv_omega

/-- The state after the entry `i` of the table `f` is set to `v`. -/
def setSlot (s : Vmm) (f : Word) (i : BitVec 9) (v : Word) : Vmm :=
  { s with
    pmm := { s.pmm with mem := store64 s.pmm.mem (f + 8 * i.setWidth 64) v }
    log := .store (f + 8 * i.setWidth 64) v :: s.log }

theorem Vmm.setEntry_eq (s : Vmm) (f v : Word) (i : BitVec 9) :
    s.setEntry b (f + b.hhdmOffset) (i.setWidth 64) v = setSlot s f i v := by
  have h : b.deref (f + b.hhdmOffset + 8 * i.setWidth 64) = f + 8 * i.setWidth 64 := by
    rw [Limine.deref]
    bv_omega
  rw [Vmm.setEntry, h, setSlot]

theorem nextTable_present (hoff : s.hhdmOffset = b.hhdmOffset) (h : s.ent f i &&& ptePresent ≠ 0) :
    s.nextTable b (f + b.hhdmOffset) (i.setWidth 64) u =
      ((s.ent f i &&& ~~~0xFFF) + b.hhdmOffset, s) := by
  rw [Vmm.nextTable, Vmm.entry_eq, if_neg h, Vmm.physToVirt, hoff]

/-- The state after a fresh table in frame `g` is linked at the entry `i` of `f`. -/
def linkTable (s : Vmm) (pmm : Pmm) (f : Word) (i : BitVec 9) (g u : Word) : Vmm :=
  { s with
    pmm := { pmm with
      mem := store64 (fill pmm.mem g 4096 0) (f + 8 * i.setWidth 64) (tableEntry g u) }
    log := .store (f + 8 * i.setWidth 64) (tableEntry g u) :: .memset g 4096 :: .palloc g :: s.log }

theorem nextTable_absent (hoff : s.hhdmOffset = b.hhdmOffset) (h : s.ent f i &&& ptePresent = 0)
    {pmm : Pmm} (hp : palloc b s.pmm = (g, pmm)) :
    s.nextTable b (f + b.hhdmOffset) (i.setWidth 64) u =
      (g + b.hhdmOffset, linkTable s pmm f i g u) := by
  have hg : g + b.hhdmOffset - b.hhdmOffset = g := by bv_omega
  rw [Vmm.nextTable, Vmm.entry_eq, if_pos h]
  simp only [Vmm.allocTable, hp, Vmm.physToVirt, hoff, Limine.deref_add, Vmm.setEntry_eq,
    Vmm.virtToPhys, hg, setSlot, linkTable, tableEntry]

/-- What a call adds to the tables, with `ev` the events it logs.  Old tables stay
where they are and keep every present entry; new ones are frames taken from the
free list, and all their entries are blank or point to such a table. -/
structure Grows (b : Limine) (dec : Nat → Word → Option Word) (u : Word) (s s' : Vmm)
    (L L' out out' : List Word) (ev : List VmmEvent) : Prop where
  root : s'.root b = s.root b
  sub : ∀ f ∈ L', f ∈ L
  mono : ∀ f ∈ out, f ∈ out'
  nodes : ∀ p f, p.length ≤ 3 → s.node b dec p = some f → s'.node b dec p = some f
  fresh : ∀ p f, p.length ≤ 3 → s'.node b dec p = some f → s.node b dec p = some f ∨
    (f ∈ L ∧ f ∈ out' ∧ .palloc f ∈ ev ∧
      ∀ i, s'.ent f i = 0 ∨ ∃ g, b.UsableFrame g ∧ s'.ent f i = tableEntry g u)
  keep : ∀ p f i, p.length ≤ 3 → s.node b dec p = some f → s'.ent f i = s.ent f i ∨
    (s.ent f i &&& ptePresent = 0 ∧ ∃ g, b.UsableFrame g ∧ s'.ent f i = tableEntry g u)
  find : ∀ p, p.length = 4 → s'.find b dec p = s.find b dec p
  log : s'.log = ev ++ s.log
  safe : ∀ e ∈ ev, e ≠ .palloc 0 ∧
    ∀ x, e.Writes x → ∃ p, p.length ≤ 3 ∧ s'.node b dec p = some (pageOf x)

theorem Grows.refl (b : Limine) (dec : Nat → Word → Option Word) (u : Word) (s : Vmm)
    (L out : List Word) : Grows b dec u s s L L out out [] :=
  ⟨rfl, fun _ h => h, fun _ h => h, fun _ _ _ h => h, fun _ _ _ h => Or.inl h,
    fun _ _ _ _ _ => Or.inl rfl, fun _ _ => rfl, rfl, fun _ h => by cases h⟩

theorem Grows.trans {ev ev' : List VmmEvent} (hu : u = 0 ∨ u = pteUser)
    (h : Grows b dec u s s' L L' out out' ev) (h' : Grows b dec u s' s'' L' L'' out' out'' ev') :
    Grows b dec u s s'' L L'' out out'' (ev' ++ ev) := by
  refine ⟨h'.root.trans h.root, fun f hf => h.sub f (h'.sub f hf),
    fun f hf => h'.mono f (h.mono f hf), fun p f hp hn => h'.nodes p f hp (h.nodes p f hp hn),
    ?_, ?_, fun p hp => (h'.find p hp).trans (h.find p hp), ?_, ?_⟩
  · intro p f hp hn
    rcases h'.fresh p f hp hn with hn' | ⟨hL, ho, hev, hent⟩
    · rcases h.fresh p f hp hn' with hn'' | ⟨hL, ho, hev, hent⟩
      · exact Or.inl hn''
      · refine Or.inr ⟨hL, h'.mono f ho, List.mem_append_right _ hev, fun i => ?_⟩
        rcases h'.keep p f i hp hn' with he | ⟨_, hg⟩
        · rw [he]
          exact hent i
        · exact Or.inr hg
    · exact Or.inr ⟨h.sub f hL, ho, List.mem_append_left _ hev, hent⟩
  · intro p f i hp hn
    rcases h'.keep p f i hp (h.nodes p f hp hn) with he | ⟨habs, hg⟩
    · rw [he]
      exact h.keep p f i hp hn
    · rcases h.keep p f i hp hn with he | ⟨_, g, hg', he⟩
      · exact Or.inr ⟨he ▸ habs, hg⟩
      · rw [he] at habs
        exact absurd habs (tableEntry_present hg'.aligned hu)
  · rw [h'.log, h.log, List.append_assoc]
  · intro e he
    rcases List.mem_append.mp he with he | he
    · exact h'.safe e he
    · refine ⟨(h.safe e he).1, fun x hx => ?_⟩
      obtain ⟨p, hp, hn⟩ := (h.safe e he).2 x hx
      exact ⟨p, hp, h'.nodes p _ hp hn⟩

theorem linkTable_blank {pmm : Pmm} (hf : PageAligned f) (hg : PageAligned g) (hne : f ≠ g)
    (j : BitVec 9) : (linkTable s pmm f i g u).ent g j = 0 :=
  (slot_store_of_ne hf hg (fun he => absurd he.symm hne)).trans (slot_fill_same hg j)

/-- Linking writes to the new table and to its parent, so the free list stays. -/
theorem linkTable_inv {pmm : Pmm} (hf : PageAligned f) (hfL : f ∉ L)
    (hinv : PmmInv b pmm L (g :: out)) : PmmInv b (linkTable s pmm f i g u).pmm L (g :: out) := by
  have hgL : g ∉ L := hinv.not_mem_of_mem_out List.mem_cons_self
  have hg : PageAligned g := ((hinv.usable g).mpr (by simp)).aligned
  refine hinv.frame (fun x hx => ?_)
  rw [store_slot_apply hf, fill_page_apply hg]
  · rintro rfl
    exact hgL hx
  · rintro rfl
    exact hfL hx

section Link

variable {p : List (BitVec 9)} {pmm : Pmm} (hdec : Decoder b dec)
  (h : Sound b dec s (g :: L) out) (hn : s.node b dec p = some f) (hp : p.length < 3)
  (habs : s.ent f i &&& ptePresent = 0) (hu : u = 0 ∨ u = pteUser) (hmem : pmm.mem = s.pmm.mem)

include h hn hp hmem in
/-- The entries after the link: the new one, blank ones in the new table, and
everywhere else the old ones. -/
theorem linkTable_ent :
    (linkTable s pmm f i g u).ent f i = tableEntry g u ∧
    (∀ j, (linkTable s pmm f i g u).ent g j = 0) ∧
    ∀ q f' j, q.length ≤ 3 → s.node b dec q = some f' → (f' = f → j ≠ i) →
      (linkTable s pmm f i g u).ent f' j = s.ent f' j := by
  have hf : PageAligned f := h.aligned p f (by omega) hn
  have hg : PageAligned g := h.pmm.list.aligned g List.mem_cons_self
  have hfg : ∀ q f', q.length ≤ 3 → s.node b dec q = some f' → f' ≠ g := by
    rintro q f' hq hn' rfl
    exact h.apart q f' hq hn' List.mem_cons_self
  refine ⟨slot_store_same _ _ _ _, fun j => ?_, fun q f' j hq hn' hne => ?_⟩
  · exact linkTable_blank hf hg (hfg p f (by omega) hn) j
  · have hf' := h.aligned q f' hq hn'
    refine (slot_store_of_ne hf hf' hne).trans (slot_congr hf' (fun x hx => ?_))
    rw [fill_page_apply hg (by rw [hx]; exact hfg q f' hq hn'), hmem]

include hdec h hn hp habs hu hmem in
theorem linkTable_link :
    Link 3 dec s.ent (linkTable s pmm f i g u).ent (s.root b) p i f g := by
  obtain ⟨hnew, hblank, hsame⟩ := linkTable_ent (u := u) (i := i) h hn hp hmem
  have husable : b.UsableFrame g := (h.pmm.usable g).mpr (by simp)
  refine ⟨hn, hp, hdec.absent _ _ habs, ?_, ?_, ?_, hsame, h.tree⟩
  · rw [hnew]
    exact hdec.built _ g u husable hu
  · intro d j
    rw [hblank j]
    exact hdec.absent _ _ (by decide)
  · exact fun q hq hn' => h.apart q g hq hn' List.mem_cons_self

include hdec h hn hp habs hu hmem in
/-- Linking a fresh table keeps the tables sound. -/
theorem linkTable_sound (hinv : PmmInv b pmm L (g :: out)) :
    Sound b dec (linkTable s pmm f i g u) L (g :: out) := by
  have hlink := linkTable_link hdec h hn hp habs hu hmem
  have hf : PageAligned f := h.aligned p f (by omega) hn
  have hg : PageAligned g := h.pmm.list.aligned g List.mem_cons_self
  have hgL : g ∉ L := (List.nodup_cons.mp h.pmm.list.nodup).1
  have hnodes : ∀ q f', q.length ≤ 3 →
      (linkTable s pmm f i g u).node b dec q = some f' → f' = g ∨ s.node b dec q = some f' := by
    intro q f' hq hn'
    have hn'' := (hlink.node_eq q hq).symm.trans hn'
    split at hn''
    · exact Or.inl (Option.some.inj hn'').symm
    · exact Or.inr hn''
  refine ⟨linkTable_inv hf (fun hfL => ?_) hinv, h.off, hlink.isTree, fun q f' hq hn' => ?_,
    fun q f' hq hn' => ?_⟩
  · exact h.apart p f (by omega) hn (List.mem_cons_of_mem g hfL)
  · rcases hnodes q f' hq hn' with rfl | hn''
    · exact hg
    · exact h.aligned q f' hq hn''
  · rcases hnodes q f' hq hn' with rfl | hn''
    · exact hgL
    · exact fun hL => h.apart q f' hq hn'' (List.mem_cons_of_mem g hL)

include hdec h hn hp habs hu hmem in
theorem linkTable_grows (hb : b.Ok) :
    Grows b dec u s (linkTable s pmm f i g u) (g :: L) L out (g :: out)
      [.store (f + 8 * i.setWidth 64) (tableEntry g u), .memset g 4096, .palloc g] := by
  have hlink := linkTable_link hdec h hn hp habs hu hmem
  obtain ⟨hnew, hblank, hsame⟩ := linkTable_ent (u := u) (i := i) h hn hp hmem
  have hf : PageAligned f := h.aligned p f (by omega) hn
  have hg : PageAligned g := h.pmm.list.aligned g List.mem_cons_self
  have husable : b.UsableFrame g := (h.pmm.usable g).mpr (by simp)
  have hkeep : ∀ q f', q.length ≤ 3 → s.node b dec q = some f' →
      (linkTable s pmm f i g u).node b dec q = some f' :=
    fun q f' hq hn' => hlink.node_of_some hq hn'
  refine ⟨rfl, fun _ hx => List.mem_cons_of_mem g hx, fun _ hx => List.mem_cons_of_mem g hx,
    hkeep, ?_, ?_, ?_, rfl, ?_⟩
  · intro q f' hq hn'
    have hn'' := (hlink.node_eq q hq).symm.trans hn'
    split at hn''
    · obtain rfl := Option.some.inj hn''
      exact Or.inr ⟨List.mem_cons_self, List.mem_cons_self, by simp, fun j => Or.inl (hblank j)⟩
    · exact Or.inl hn''
  · intro q f' j hq hn'
    by_cases hne : f' = f → j ≠ i
    · exact Or.inl (hsame q f' j hq hn' hne)
    · obtain ⟨rfl, rfl⟩ : f' = f ∧ j = i := by simpa using hne
      exact Or.inr ⟨habs, g, husable, hnew⟩
  · exact hlink.find_eq (by simp [isPresent, habs]) (fun j => by rw [hblank j]; decide)
  · intro e he
    simp only [List.mem_cons, List.not_mem_nil, or_false] at he
    rcases he with rfl | rfl | rfl
    · refine ⟨by simp, fun x hx => ⟨p, by omega, ?_⟩⟩
      rw [pageOf_of_slot hf hx]
      exact hkeep p f (by omega) hn
    · refine ⟨by simp, fun x hx => ⟨i :: p, by rw [List.length_cons]; omega, ?_⟩⟩
      rw [(pageOf_eq_iff_inRange hg).mpr hx]
      exact hlink.node_new
    · refine ⟨fun he => ?_, fun x hx => hx.elim⟩
      rw [VmmEvent.palloc.injEq] at he
      exact hb.pageZero (he ▸ husable)

end Link

/-! ### All levels -/

/-- The calls of `nextTable` along a list of indices. -/
def descend (b : Limine) (u : Word) : Vmm → Word → List (BitVec 9) → Word × Vmm
  | s, t, [] => (t, s)
  | s, t, i :: is =>
    let r := s.nextTable b t (i.setWidth 64) u
    descend b u r.2 r.1 is

/-- The indices of the three levels above the page table. -/
def upperPath (v : Word) : List (BitVec 9) :=
  [v.extractLsb' 39 9, v.extractLsb' 30 9, v.extractLsb' 21 9]

theorem mapPage_eq (s : Vmm) (virt phys flags : Word) :
    s.mapPage b virt phys flags =
      let r := descend b (flags &&& pteUser) s s.kernelPml4 (upperPath virt)
      r.2.setEntry b r.1 ((virt.extractLsb' 12 9).setWidth 64) (phys ||| flags ||| ptePresent) := by
  rw [Vmm.mapPage, pml4Index_eq, pdptIndex_eq, pdIndex_eq, ptIndex_eq]
  rfl

/-- The number of tables missing below `f` along the indices, as the kernel's mask
reads the entries. -/
def needed (ent : Word → BitVec 9 → Word) : Word → List (BitVec 9) → Nat
  | _, [] => 0
  | f, i :: is =>
    if ent f i &&& ptePresent = 0 then is.length + 1 else needed ent (ent f i &&& ~~~0xFFF) is

/-- Along the indices, from depth `d` on, the kernel's mask reads every present
entry as the decoder does. -/
def Clean (dec : Nat → Word → Option Word) (ent : Word → BitVec 9 → Word) :
    Nat → Word → List (BitVec 9) → Prop
  | _, _, [] => True
  | d, f, i :: is => ent f i &&& ptePresent ≠ 0 →
    dec d (ent f i) = some (ent f i &&& ~~~0xFFF) ∧
      Clean dec ent (d + 1) (ent f i &&& ~~~0xFFF) is

theorem clean_decSw (ent : Word → BitVec 9 → Word) :
    ∀ (is : List (BitVec 9)) (d : Nat) (f : Word), Clean decSw ent d f is := by
  intro is
  induction is with
  | nil => intro _ _; exact trivial
  | cons i is ih => exact fun d f hpres => ⟨if_neg hpres, ih _ _⟩

theorem user_bit (flags : Word) : flags &&& pteUser = 0 ∨ flags &&& pteUser = pteUser := by
  have h : flags &&& pteUser = BitVec.twoPow 64 2 &&& flags := by
    rw [BitVec.and_comm]; rfl
  rw [h, BitVec.twoPow_and]
  split
  · exact Or.inr rfl
  · exact Or.inl rfl

/-- A blank table needs every table below it. -/
theorem needed_of_blank {ent : Word → BitVec 9 → Word} (hblank : ∀ i, ent f i = 0)
    (is : List (BitVec 9)) : needed ent f is = is.length := by
  cases is with
  | nil => rfl
  | cons i is => rw [needed, hblank i, if_pos (by decide), List.length_cons]

theorem needed_le (ent : Word → BitVec 9 → Word) :
    ∀ (is : List (BitVec 9)) (f : Word), needed ent f is ≤ is.length := by
  intro is
  induction is with
  | nil => exact fun _ => le_rfl
  | cons i is ih =>
    intro f
    rw [needed, List.length_cons]
    split
    · exact le_rfl
    · exact (ih _).trans (Nat.le_succ _)

theorem clean_of_blank {ent : Word → BitVec 9 → Word} (hblank : ∀ i, ent f i = 0) (d : Nat)
    (is : List (BitVec 9)) : Clean dec ent d f is := by
  cases is with
  | nil => exact trivial
  | cons i is => exact fun hpres => absurd (by rw [hblank i]; decide) hpres

/-- **The tables of a clean path exist after the descent**, and the allocator has
lost exactly the frames they needed. -/
theorem descend_spec (hb : b.Ok) (hdec : Decoder b dec) (hu : u = 0 ∨ u = pteUser) :
    ∀ (is : List (BitVec 9)) (s : Vmm) (L out : List Word) (p : List (BitVec 9)) (f : Word),
      Sound b dec s L out → s.node b dec p = some f → p.length + is.length ≤ 3 →
      Clean dec s.ent p.length f is → needed s.ent f is ≤ L.length →
      ∃ g s' L' out' ev, descend b u s (f + b.hhdmOffset) is = (g + b.hhdmOffset, s') ∧
        Sound b dec s' L' out' ∧ s'.node b dec (is.reverse ++ p) = some g ∧
        Grows b dec u s s' L L' out out' ev := by
  intro is
  induction is with
  | nil =>
    intro s L out p f h hn _ _ _
    exact ⟨f, s, L, out, [], rfl, h, hn, Grows.refl b dec u s L out⟩
  | cons i is ih =>
    intro s L out p f h hn hlen hclean hneed
    rw [List.length_cons] at hlen
    have hpath : (i :: is).reverse ++ p = is.reverse ++ i :: p := by simp
    by_cases habs : s.ent f i &&& ptePresent = 0
    · -- the entry is blank: the table below is a fresh one
      rw [needed, if_pos habs] at hneed
      cases L with
      | nil => simp at hneed
      | cons g L =>
        rw [List.length_cons] at hneed
        obtain ⟨pmm, hpalloc, hinv, hmem⟩ := h.pmm.palloc
        have hp : p.length < 3 := by omega
        have hlink := linkTable_link hdec h hn hp habs hu hmem
        have hsound := linkTable_sound hdec h hn hp habs hu hmem hinv
        have hgrows := linkTable_grows hdec h hn hp habs hu hmem hb
        have hblank := (linkTable_ent (u := u) (i := i) h hn hp hmem).2.1
        obtain ⟨g', s', L', out', ev, hrun, hs', hnode, hg'⟩ := ih (linkTable s pmm f i g u) L
          (g :: out) (i :: p) g hsound hlink.node_new (by rw [List.length_cons]; omega)
          (clean_of_blank hblank _ _) (by rw [needed_of_blank hblank]; omega)
        refine ⟨g', s', L', out', _, ?_, hs', by rw [hpath]; exact hnode, hgrows.trans hu hg'⟩
        rw [descend, nextTable_absent h.off habs hpalloc]
        exact hrun
    · -- the entry is a table already
      obtain ⟨htable, hclean'⟩ := hclean habs
      rw [needed, if_neg habs] at hneed
      have hnode : s.node b dec (i :: p) = some (s.ent f i &&& ~~~0xFFF) :=
        (node_cons_of_some hn).trans htable
      obtain ⟨g', s', L', out', ev, hrun, hs', hnode', hg'⟩ := ih s L out (i :: p) _ h hnode
        (by rw [List.length_cons]; omega) hclean' hneed
      refine ⟨g', s', L', out', ev, ?_, hs', by rw [hpath]; exact hnode', hg'⟩
      rw [descend, nextTable_present h.off habs]
      exact hrun

end AncoreOS.Mm
