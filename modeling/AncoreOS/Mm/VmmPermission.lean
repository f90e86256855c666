import AncoreOS.Mm.VmmRefine

/-!
# Effective permissions

The processor grants an access when every entry of the walk grants it.
`map_page` gives a table entry the writable bit and the user bit of the mapping
that created it, and it never looks at the entries it finds: a user page that
lands in tables made for kernel pages stays closed to user mode.

`permissions_kept` says what the code does provide: in a run where every user
mapping finds the upper entries open (`UserOpen`), each page has the permissions
of its last `map_page`.
-/

namespace AncoreOS.Mm

open ByteMemory Radix

variable {b : Limine} {s s' : Vmm} {L out : List Word}

/-! ### The entries of a walk -/

/-- The entries met along the indices, with the kernel's mask. -/
def entriesAlong (ent : Word → BitVec 9 → Word) : Word → List (BitVec 9) → List Word
  | _, [] => []
  | f, i :: is => ent f i :: entriesAlong ent (ent f i &&& ~~~0xFFF) is

/-- The four entries of the walk of `v`, the PML4's first. -/
def walkEntries (m : Mem) (pml4 v : Word) : List Word :=
  entriesAlong (slot m) pml4 (pathOf v).reverse

/-- The access that `bit` stands for is granted by every entry of the walk. -/
def effective (bit : Word) (m : Mem) (pml4 v : Word) : Bool :=
  (walkEntries m pml4 v).all fun e => decide (e &&& bit ≠ 0)

/-- Every present entry along the indices has the user bit. -/
def UserOpen (ent : Word → BitVec 9 → Word) : Word → List (BitVec 9) → Prop
  | _, [] => True
  | f, i :: is => ent f i &&& ptePresent ≠ 0 →
    ent f i &&& pteUser ≠ 0 ∧ UserOpen ent (ent f i &&& ~~~0xFFF) is

theorem length_upperPath (v : Word) : 0 + (upperPath v).length = 3 := rfl

theorem walkEntries_of_walk {m : Mem} {pml4 v e : Word} (h : walk m pml4 v = some e) :
    walkEntries m pml4 v = entriesAlong (slot m) pml4 (upperPath v) ++ [e] ∧
      ∀ e' ∈ entriesAlong (slot m) pml4 (upperPath v), e' &&& ptePresent ≠ 0 := by
  unfold walk at h
  simp only at h
  split at h
  · exact absurd h.symm (Option.some_ne_none e)
  next h₄ =>
  split at h
  · exact absurd h.symm (Option.some_ne_none e)
  next h₃ =>
  split at h
  · exact absurd h.symm (Option.some_ne_none e)
  next h₂ =>
  split at h
  · exact absurd h.symm (Option.some_ne_none e)
  rw [← Option.some.inj h]
  refine ⟨rfl, fun e' he' => ?_⟩
  simp only [upperPath, entriesAlong, List.mem_cons, List.not_mem_nil, or_false] at he'
  rcases he' with rfl | rfl | rfl
  · exact h₄
  · exact h₃
  · exact h₂

/-- The entries along present entries are entries of tables. -/
theorem exists_node_of_mem_entriesAlong :
    ∀ (is p : List (BitVec 9)) (f : Word), s.node b decSw p = some f → p.length + is.length ≤ 3 →
      (∀ e ∈ entriesAlong s.ent f is, e &&& ptePresent ≠ 0) →
      ∀ e ∈ entriesAlong s.ent f is,
        ∃ q t i, q.length < 3 ∧ s.node b decSw q = some t ∧ e = s.ent t i := by
  intro is
  induction is with
  | nil => exact fun _ _ _ _ _ e he => absurd he List.not_mem_nil
  | cons i is ih =>
    intro p f hn hlen hpres e he
    rw [List.length_cons] at hlen
    rw [entriesAlong] at hpres he
    rcases List.mem_cons.mp he with rfl | he
    · exact ⟨p, f, i, by omega, hn, rfl⟩
    · have hnode : s.node b decSw (i :: p) = some (s.ent f i &&& ~~~0xFFF) :=
        (node_cons_of_some hn).trans (if_neg (hpres _ List.mem_cons_self))
      exact ih (i :: p) _ hnode (by rw [List.length_cons]; omega)
        (fun e he => hpres e (List.mem_cons_of_mem _ he)) e he

/-- Where the tables of a path exist, its entries are present. -/
theorem present_of_node {g : Word} :
    ∀ (is p : List (BitVec 9)) (f : Word), s.node b decSw p = some f →
      s.node b decSw (is.reverse ++ p) = some g →
      ∀ e ∈ entriesAlong s.ent f is, e &&& ptePresent ≠ 0 := by
  intro is
  induction is with
  | nil => exact fun _ _ _ _ e he => absurd he List.not_mem_nil
  | cons i is ih =>
    intro p f hn hg e he
    rw [List.reverse_cons, List.append_assoc] at hg
    have hnode : s.node b decSw (i :: p) = decSw p.length (s.ent f i) := node_cons_of_some hn
    have hpres : s.ent f i &&& ptePresent ≠ 0 := by
      intro habs
      have hgone : s.node b decSw (is.reverse ++ i :: p) = none :=
        node_append_of_none (hnode.trans (if_pos habs)) _
      exact Option.some_ne_none g (hg.symm.trans hgone)
    rw [entriesAlong] at he
    rcases List.mem_cons.mp he with rfl | he
    · exact hpres
    · exact ih (i :: p) _ (hnode.trans (if_neg hpres)) hg e he

/-- The step keeps every present entry above the page tables. -/
structure KeepsUpper (b : Limine) (s s' : Vmm) : Prop where
  root : s'.root b = s.root b
  ent : ∀ q t i, q.length < 3 → s.node b decSw q = some t → s.ent t i &&& ptePresent ≠ 0 →
    s'.ent t i = s.ent t i

theorem entriesAlong_eq (hkeep : KeepsUpper b s s') :
    ∀ (is p : List (BitVec 9)) (f : Word), s.node b decSw p = some f → p.length + is.length ≤ 3 →
      (∀ e ∈ entriesAlong s.ent f is, e &&& ptePresent ≠ 0) →
      entriesAlong s'.ent f is = entriesAlong s.ent f is := by
  intro is
  induction is with
  | nil => intro _ _ _ _ _; rw [entriesAlong, entriesAlong]
  | cons i is ih =>
    intro p f hn hlen hpres
    rw [List.length_cons] at hlen
    rw [entriesAlong] at hpres
    have hi := hpres _ List.mem_cons_self
    have hnode : s.node b decSw (i :: p) = some (s.ent f i &&& ~~~0xFFF) :=
      (node_cons_of_some hn).trans (if_neg hi)
    rw [entriesAlong, entriesAlong, hkeep.ent p f i (by omega) hn hi,
      ih (i :: p) _ hnode (by rw [List.length_cons]; omega)
        (fun e he => hpres e (List.mem_cons_of_mem _ he))]

/-! ### What the operations do to the upper entries -/

theorem setSlot_keepsUpper {p : List (BitVec 9)} {f v : Word} {i : BitVec 9}
    (h : Sound b decSw s L out) (hn : s.node b decSw p = some f) (hp : p.length = 3) :
    KeepsUpper b s (setSlot s f i v) := by
  refine ⟨rfl, fun q t j hq ht _ => (setSlot_leaf h hn hp).same q t j (by omega) ht ?_⟩
  rintro rfl
  have hpath := h.tree q p t (by omega) (by omega) ht hn
  rw [hpath] at hq
  omega

theorem mapPage_keepsUpper (hb : b.Ok) (h : Sound b decSw s L out) (virt phys flags : Word)
    (hneed : needed s.ent (s.root b) (upperPath virt) ≤ L.length) :
    KeepsUpper b s (s.mapPage b virt phys flags) := by
  obtain ⟨s₁, pt, _, _, _, hs₁, hgrows, hnode, hrun⟩ := mapPage_spec hb (decoder_decSw b) h virt
    phys flags (clean_decSw _ _ _ _) hneed
  rw [hrun]
  refine ⟨hgrows.root, fun q t i hq ht hpres => ?_⟩
  rcases hgrows.keep q t i (by omega) ht with he | ⟨habs, _⟩
  · have ht₁ := hgrows.nodes q t (by omega) ht
    rw [(setSlot_keepsUpper hs₁ hnode rfl).ent q t i hq ht₁ (by rw [he]; exact hpres), he]
  · exact absurd habs hpres

theorem unmapPage_keepsUpper (h : Sound b decSw s L out) (virt : Word) :
    KeepsUpper b s (s.unmapPage b virt) := by
  rcases unmapPage_spec (decoder_decSw b) h virt (clean_decSw _ _ _ _) with
    ⟨hrun, _⟩ | ⟨pt, hnode, hrun⟩
  · rw [hrun]
    exact ⟨rfl, fun _ _ _ _ _ _ => rfl⟩
  · rw [hrun]
    exact setSlot_keepsUpper h hnode rfl

theorem tableEntry_user {g : Word} : tableEntry g pteUser &&& pteUser ≠ 0 := by
  rw [tableEntry_and]
  intro h
  have := congrArg (fun x => BitVec.getLsbD x 2) h
  simp [pteUser] at this

theorem tableEntry_writable {g u : Word} : tableEntry g u &&& pteWritable ≠ 0 := by
  rw [tableEntry_and]
  intro h
  have := congrArg (fun x => BitVec.getLsbD x 1) h
  simp [pteWritable] at this

/-- The entry of an open path and the table below it are old ones, or the mapping made them. -/
theorem Grows.user_step {L' out' : List Word} {ev : List VmmEvent}
    (hgrows : Grows b decSw pteUser s s' L L' out out' ev) {i : BitVec 9} {is p : List (BitVec 9)}
    {f : Word} (hlen : p.length + (is.length + 1) ≤ 3) (hn : s'.node b decSw p = some f)
    (hpres : s'.ent f i &&& ptePresent ≠ 0)
    (hopen : s.node b decSw p = some f → UserOpen s.ent f (i :: is)) :
    s'.ent f i &&& pteUser ≠ 0 ∧
      (s.node b decSw (i :: p) = some (s'.ent f i &&& ~~~0xFFF) →
        UserOpen s.ent (s'.ent f i &&& ~~~0xFFF) is) := by
  rcases hgrows.fresh p f (by omega) hn with hold | ⟨hL, _, _, hent⟩
  · rcases hgrows.keep p f i (by omega) hold with he | ⟨habs, g', _, he⟩
    · rw [he] at hpres ⊢
      exact ⟨(hopen hold hpres).1, fun _ => (hopen hold hpres).2⟩
    · have hnone : s.node b decSw (i :: p) = none :=
        (node_cons_of_some hold).trans (if_pos habs)
      rw [he]
      exact ⟨tableEntry_user, fun hsome => absurd (hsome.symm.trans hnone) (by simp)⟩
  · refine ⟨?_, fun hsome => ?_⟩
    · rcases hent i with h0 | ⟨g', _, he⟩
      · exact absurd (by rw [h0]; decide) hpres
      · rw [he]
        exact tableEntry_user
    · obtain ⟨t, ht, hd⟩ := exists_parent hsome
      have htf : t = f := Option.some.inj ((hgrows.nodes p t (by omega) ht).symm.trans hn)
      rw [htf] at ht hd
      -- the parent was there before, so the entry is an old one after all
      rcases hgrows.keep p f i (by omega) ht with he | ⟨habs, _⟩
      · rw [he] at hpres ⊢
        exact (hopen ht hpres).2
      · rw [decSw, if_pos habs] at hd
        exact absurd hd.symm (by simp)

/-- The upper entries of an open path have the user bit after a user mapping. -/
theorem Grows.user_along {L' out' : List Word} {ev : List VmmEvent} {g : Word}
    (hgrows : Grows b decSw pteUser s s' L L' out out' ev) :
    ∀ (is p : List (BitVec 9)) (f : Word), p.length + is.length ≤ 3 →
      s'.node b decSw p = some f → s'.node b decSw (is.reverse ++ p) = some g →
      (s.node b decSw p = some f → UserOpen s.ent f is) →
      ∀ e ∈ entriesAlong s'.ent f is, e &&& pteUser ≠ 0 := by
  intro is
  induction is with
  | nil => exact fun _ _ _ _ _ _ e he => absurd he List.not_mem_nil
  | cons i is ih =>
    intro p f hlen hn hg hopen
    rw [List.length_cons] at hlen
    have hpres : s'.ent f i &&& ptePresent ≠ 0 :=
      present_of_node (i :: is) p f hn hg _ (by rw [entriesAlong]; exact List.mem_cons_self)
    rw [List.reverse_cons, List.append_assoc] at hg
    have hnode : s'.node b decSw (i :: p) = decSw p.length (s'.ent f i) := node_cons_of_some hn
    have hbelow := ih (i :: p) _ (by rw [List.length_cons]; omega)
      (hnode.trans (if_neg hpres)) hg
    have hcase := hgrows.user_step hlen hn hpres hopen
    intro e he
    rw [entriesAlong] at he
    rcases List.mem_cons.mp he with rfl | he
    · exact hcase.1
    · exact hbelow hcase.2 e he

theorem mapPage_user (hb : b.Ok) (h : Sound b decSw s L out) {virt phys flags : Word}
    (hneed : needed s.ent (s.root b) (upperPath virt) ≤ L.length)
    (huser : flags &&& pteUser ≠ 0) (hopen : UserOpen s.ent (s.root b) (upperPath virt)) :
    ∀ e ∈ entriesAlong (s.mapPage b virt phys flags).ent
      ((s.mapPage b virt phys flags).root b) (upperPath virt), e &&& pteUser ≠ 0 := by
  obtain ⟨s₁, pt, _, _, _, hs₁, hgrows, hnode, hrun⟩ := mapPage_spec hb (decoder_decSw b) h virt
    phys flags (clean_decSw _ _ _ _) hneed
  have hnode' : s₁.node b decSw ((upperPath virt).reverse ++ []) = some pt := by
    rw [List.append_nil]
    exact hnode
  rw [(user_bit flags).resolve_left huser] at hgrows
  rw [hrun, (setSlot_keepsUpper hs₁ hnode rfl).root,
    entriesAlong_eq (setSlot_keepsUpper hs₁ hnode rfl) (upperPath virt) [] _ rfl
      (length_upperPath virt).le (present_of_node (upperPath virt) [] _ rfl hnode')]
  refine hgrows.user_along (upperPath virt) [] _ (length_upperPath virt).le rfl hnode' (fun _ => ?_)
  rw [hgrows.root]
  exact hopen

/-! ### Runs -/

/-- The mapping asks for no permission through `phys`, and a user mapping finds the
upper entries open. -/
def VmmOp.Open (b : Limine) (s : Vmm) : VmmOp → Prop
  | .map virt phys flags =>
    (phys ||| flags) &&& (pteWritable ||| pteUser) = flags &&& (pteWritable ||| pteUser) ∧
      (flags &&& pteUser ≠ 0 → UserOpen s.ent (s.root b) (upperPath virt))
  | .unmap _ => True

/-- Each page of the map has the permissions of its last `map_page`. -/
def Permits (b : Limine) (s : Vmm) (m : PageMap) : Prop :=
  ∀ v phys flags, m (pageNumber v) = some (phys, flags) →
    effective pteUser s.pmm.mem (s.root b) v = decide (flags &&& pteUser ≠ 0) ∧
    effective pteWritable s.pmm.mem (s.root b) v = decide (flags &&& pteWritable ≠ 0)

/-- The invariant behind `Permits`: user pages have open upper entries. -/
def UserPaths (b : Limine) (s : Vmm) (m : PageMap) : Prop :=
  ∀ v phys flags, m (pageNumber v) = some (phys, flags) →
    (phys ||| flags) &&& (pteWritable ||| pteUser) = flags &&& (pteWritable ||| pteUser) ∧
    (flags &&& pteUser ≠ 0 →
      ∀ e ∈ entriesAlong s.ent (s.root b) (upperPath v), e &&& pteUser ≠ 0)

theorem upperPath_eq {v w : Word} (h : pageNumber v = pageNumber w) : upperPath v = upperPath w :=
  congrArg (fun p => p.reverse.take 3) ((pathOf_eq_iff v w).mpr h)

theorem Refines.walk_eq {m : PageMap} (hm : Refines b decSw s m) {v : Word} {a : Word × Word}
    (ha : m (pageNumber v) = some a) : walk s.pmm.mem (s.root b) v = some (leafEntry a) := by
  rw [walk_eq_find, hm v, ha]
  rfl

/-- A step that keeps the upper entries keeps the open paths of the other pages. -/
theorem UserPaths.keep {m m' : PageMap} (h : UserPaths b s m) (hm : Refines b decSw s m)
    (hkeep : KeepsUpper b s s') {v phys flags : Word} (hsame : m' (pageNumber v) = m (pageNumber v))
    (ha : m' (pageNumber v) = some (phys, flags)) :
    (phys ||| flags) &&& (pteWritable ||| pteUser) = flags &&& (pteWritable ||| pteUser) ∧
    (flags &&& pteUser ≠ 0 →
      ∀ e ∈ entriesAlong s'.ent (s'.root b) (upperPath v), e &&& pteUser ≠ 0) := by
  rw [hsame] at ha
  obtain ⟨hbits, huser⟩ := h v phys flags ha
  have hpres := (walkEntries_of_walk (hm.walk_eq ha)).2
  rw [hkeep.root, entriesAlong_eq hkeep (upperPath v) [] _ rfl (length_upperPath v).le hpres]
  exact ⟨hbits, huser⟩

theorem VmmOp.exec_userPaths (hb : b.Ok) {m : PageMap} (h : Sound b decSw s L out)
    (hm : Refines b decSw s m) (hu : UserPaths b s m) (op : VmmOp) (henough : op.Enough b s)
    (hopen : op.Open b s) : UserPaths b (op.exec b s) (op.update m) := by
  intro v phys flags ha
  cases op with
  | map virt phys' flags' =>
    have hneed : needed s.ent (s.root b) (upperPath virt) ≤ L.length := by
      rw [← h.pmm.list.free]
      exact henough
    by_cases hv : pageNumber v = pageNumber virt
    · rw [VmmOp.update, hv, Function.update_self, Option.some_inj, Prod.mk.injEq] at ha
      obtain ⟨rfl, rfl⟩ := ha
      rw [upperPath_eq hv]
      exact ⟨hopen.1, fun huser => mapPage_user hb h hneed huser (hopen.2 huser)⟩
    · exact hu.keep hm (mapPage_keepsUpper hb h virt phys' flags' hneed)
        (Function.update_of_ne hv _ _) ha
  | unmap virt =>
    by_cases hv : pageNumber v = pageNumber virt
    · rw [VmmOp.update, hv, Function.update_self] at ha
      exact absurd ha.symm (Option.some_ne_none _)
    · exact hu.keep hm (unmapPage_keepsUpper h virt) (Function.update_of_ne hv _ _) ha

theorem leafEntry_and {phys flags bit : Word} (hbit : bit = pteWritable ∨ bit = pteUser)
    (h : (phys ||| flags) &&& (pteWritable ||| pteUser) = flags &&& (pteWritable ||| pteUser)) :
    leafEntry (phys, flags) &&& bit = flags &&& bit := by
  have hmask : (pteWritable ||| pteUser) &&& bit = bit := by
    rcases hbit with rfl | rfl <;> decide
  have hpres : ptePresent &&& bit = 0 := by
    rcases hbit with rfl | rfl <;> decide
  have hcut : ∀ x : Word, x &&& bit = x &&& (pteWritable ||| pteUser) &&& bit := fun x => by
    rw [BitVec.and_assoc, hmask]
  have hleaf : leafEntry (phys, flags) &&& bit = (phys ||| flags) &&& bit := by
    rw [leafEntry, BitVec.and_or_distrib_right, hpres]
    exact BitVec.or_zero
  rw [hleaf, hcut, h, ← hcut]

/-- The upper entries of a mapped page are writable. -/
theorem Joint.writable {held : List Word} (h : Joint b decSw ⟨s, held⟩ L out) {v e : Word}
    (hwalk : walk s.pmm.mem (s.root b) v = some e) :
    ∀ e' ∈ entriesAlong s.ent (s.root b) (upperPath v), e' &&& pteWritable ≠ 0 := by
  intro e' he'
  have hpres := (walkEntries_of_walk hwalk).2
  obtain ⟨q, t, i, hq, ht, rfl⟩ :=
    exists_node_of_mem_entriesAlong (upperPath v) [] _ rfl (length_upperPath v).le hpres e'
      he'
  rcases h.built q t i hq ht with h0 | ⟨g, u, _, _, hent⟩
  · exact absurd (by rw [h0]; decide) (hpres _ he')
  · rw [hent]
    exact tableEntry_writable

/-- The leaf decides when the entries above it grant the access. -/
theorem effective_of_walk {m : Mem} {pml4 v e bit : Word} (h : walk m pml4 v = some e)
    (hupper : e &&& bit ≠ 0 → ∀ e' ∈ entriesAlong (slot m) pml4 (upperPath v), e' &&& bit ≠ 0) :
    effective bit m pml4 v = decide (e &&& bit ≠ 0) := by
  rw [effective, (walkEntries_of_walk h).1, List.all_append]
  by_cases he : e &&& bit = 0
  · simp [he]
  · have hall : (entriesAlong (slot m) pml4 (upperPath v)).all
        (fun e => decide (e &&& bit ≠ 0)) = true := by
      rw [List.all_eq_true]
      exact fun e' he' => decide_eq_true (hupper he e' he')
    rw [hall]
    simp

theorem UserPaths.permits {m : PageMap} {held : List Word} (h : Joint b decSw ⟨s, held⟩ L out)
    (hm : Refines b decSw s m) (hu : UserPaths b s m) : Permits b s m := by
  intro v phys flags ha
  obtain ⟨hbits, huser⟩ := hu v phys flags ha
  have hwalk := hm.walk_eq ha
  have hU := leafEntry_and (Or.inr rfl) hbits
  have hW := leafEntry_and (Or.inl rfl) hbits
  constructor
  · rw [effective_of_walk hwalk (by rw [hU]; exact huser), hU]
  · rw [effective_of_walk hwalk (fun _ => h.writable hwalk), hW]

theorem exec_permits (hb : b.Ok) {held : List Word} :
    ∀ (ops : List VmmOp) (s : Vmm) (L out : List Word) (m : PageMap),
      Joint b decSw ⟨s, held⟩ L out → Refines b decSw s m → UserPaths b s m →
      EachStep b (fun s op => op.Enough b s ∧ op.Open b s) s ops →
      Permits b (exec b s ops) (ops.foldl VmmOp.update m) := by
  intro ops
  induction ops with
  | nil => exact fun s L out m h hm hu _ => hu.permits h hm
  | cons op ops ih =>
    intro s L out m h hm hu hsteps
    obtain ⟨henough, hopen⟩ := hsteps.1
    obtain ⟨⟨L', out', h'⟩, hm'⟩ := op.exec_refines hb (decoder_decSw b) h hm henough
    have hu' := op.exec_userPaths hb h.sound hm hu henough hopen
    exact ih (op.exec b s) L' out' (op.update m) h' hm' hu' hsteps.2

/-- **In a run of open mappings every page has the permissions it was mapped with.** -/
theorem permissions_kept (hb : b.Ok) {pmm : Pmm} {cr3 : Word} (h : VmmStart b pmm cr3 L out)
    (ops : List VmmOp)
    (hsteps : EachStep b (fun s op => op.Enough b s ∧ op.Open b s) (vmmStart b pmm cr3) ops) :
    Permits b (exec b (vmmStart b pmm cr3) ops) (lastMap ops) :=
  exec_permits hb ops _ L out _
    (h.joint (decoder_decSw b) (List.forall_mem_nil _) List.nodup_nil List.not_mem_nil)
    (h.refines (decoder_decSw b)) (fun _ _ _ ha => absurd ha.symm (Option.some_ne_none _)) hsteps

theorem userOpen_of_blank {ent : Word → BitVec 9 → Word} {f : Word} (hblank : ∀ i, ent f i = 0)
    (is : List (BitVec 9)) : UserOpen ent f is := by
  cases is with
  | nil => exact trivial
  | cons i is => exact fun hpres => absurd (by rw [hblank i]; decide) hpres

theorem permissions_kept_exampleRam :
    ∃ pmm, pmmInit exampleRam (fun _ => 0) = some pmm ∧
      Permits exampleRam (exec exampleRam (vmmStart exampleRam pmm 0x8000)
        [.map 0x400000 0x200000 7, .map 0x401000 0x201000 3])
        (lastMap [.map 0x400000 0x200000 7, .map 0x401000 0x201000 3]) := by
  obtain ⟨pmm, L, hinit, hstart, hlen⟩ := exampleRam_start
  obtain ⟨_, h₁, h₂⟩ := exampleRam_enough hstart hlen 0x200000 7
  refine ⟨pmm, hinit, permissions_kept exampleRam_ok hstart _
    ⟨⟨h₁, by decide, fun _ => ?_⟩, ⟨h₂ _ _, by decide, fun huser => ?_⟩, trivial⟩⟩
  · rw [vmmStart_root, vmmStart_ent]
    exact userOpen_of_blank hstart.blank _
  · exact absurd (by decide) huser

/-! ### A user page beside a kernel page -/

/-- The PML4 entry of a kernel mapping that finds no table is closed to user mode. -/
theorem mapPage_closed (hb : b.Ok) (h : Sound b decSw s L out) (virt phys flags : Word)
    (hneed : needed s.ent (s.root b) (upperPath virt) ≤ L.length)
    (hkernel : flags &&& pteUser = 0)
    (habs : s.ent (s.root b) (virt.extractLsb' 39 9) &&& ptePresent = 0) :
    (s.mapPage b virt phys flags).ent (s.root b) (virt.extractLsb' 39 9) &&& ptePresent ≠ 0 ∧
      (s.mapPage b virt phys flags).ent (s.root b) (virt.extractLsb' 39 9) &&& pteUser = 0 := by
  obtain ⟨s₁, pt, _, _, _, hs₁, hgrows, hnode, hrun⟩ := mapPage_spec hb (decoder_decSw b) h virt
    phys flags (clean_decSw _ _ _ _) hneed
  have hnode' : s₁.node b decSw ((upperPath virt).reverse ++ []) = some pt := by
    rw [List.append_nil]
    exact hnode
  have hpres : s₁.ent (s.root b) (virt.extractLsb' 39 9) &&& ptePresent ≠ 0 := by
    rw [← hgrows.root]
    refine present_of_node (upperPath virt) [] (s₁.root b) rfl hnode' _ ?_
    rw [upperPath, entriesAlong]
    exact List.mem_cons_self
  have hroot : s₁.node b decSw [] = some (s.root b) := by rw [← hgrows.root]; rfl
  rw [hrun, (setSlot_keepsUpper hs₁ hnode rfl).ent [] _ _ (by decide) hroot hpres]
  refine ⟨hpres, ?_⟩
  rcases hgrows.keep [] _ (virt.extractLsb' 39 9) (by decide) rfl with he | ⟨_, g, hg, he⟩
  · rw [he] at hpres
    exact absurd habs hpres
  · rw [he, hkernel, tableEntry_and, hg.aligned.and_low (by decide)]
    decide

theorem effective_of_pml4_closed {v bit : Word}
    (h : s.ent (s.root b) (v.extractLsb' 39 9) &&& bit = 0) :
    effective bit s.pmm.mem (s.root b) v = false := by
  have hmem : s.ent (s.root b) (v.extractLsb' 39 9) ∈ walkEntries s.pmm.mem (s.root b) v := by
    rw [walkEntries, pathOf, List.reverse_cons, List.reverse_cons, List.reverse_cons,
      List.reverse_cons, List.reverse_nil, List.nil_append]
    exact List.mem_cons_self
  rw [effective, List.all_eq_false]
  exact ⟨_, hmem, by simp [h]⟩

theorem exampleRam_not_permits :
    ∃ pmm, pmmInit exampleRam (fun _ => 0) = some pmm ∧
      EachStep exampleRam (fun s op => op.Enough exampleRam s) (vmmStart exampleRam pmm 0x8000)
        [.map 0x400000 0x200000 3, .map 0x401000 0x201000 7] ∧
      ¬ Permits exampleRam (exec exampleRam (vmmStart exampleRam pmm 0x8000)
        [.map 0x400000 0x200000 3, .map 0x401000 0x201000 7])
        (lastMap [.map 0x400000 0x200000 3, .map 0x401000 0x201000 7]) := by
  obtain ⟨pmm, L, hinit, hstart, hlen⟩ := exampleRam_start
  obtain ⟨hneed, h₁, h₂⟩ := exampleRam_enough hstart hlen 0x200000 3
  refine ⟨pmm, hinit, ⟨h₁, h₂ _ _, trivial⟩, fun hpermits => ?_⟩
  have hjoint := hstart.joint (decoder_decSw exampleRam) (List.forall_mem_nil _) List.nodup_nil
    List.not_mem_nil
  have hmap := mapPage_keepsUpper exampleRam_ok hjoint.sound 0x400000 0x200000 3 hneed
  obtain ⟨hpres, hclosed⟩ := mapPage_closed exampleRam_ok hjoint.sound 0x400000 0x200000 3 hneed
    (by decide) (by rw [vmmStart_root, vmmStart_ent, hstart.blank]; decide)
  obtain ⟨L₁, out₁, hjoint₁⟩ := hjoint.mapPage exampleRam_ok (decoder_decSw exampleRam)
    0x400000 0x200000 3 hneed
  -- the second mapping finds the closed entry and keeps it
  have hkeep := mapPage_keepsUpper exampleRam_ok hjoint₁.sound 0x401000 0x201000 7
    (by rw [← hjoint₁.sound.pmm.list.free]; exact h₂ 0x201000 7)
  rw [← hmap.root] at hpres hclosed
  have hkept := hkeep.ent [] _ _ (by decide) rfl hpres
  rw [← hkept, ← hkeep.root] at hclosed
  have hfalse := effective_of_pml4_closed (v := 0x401000) hclosed
  have htrue := (hpermits 0x401000 0x201000 7 (by decide)).1
  exact absurd (htrue.symm.trans hfalse) (by decide)

end AncoreOS.Mm
