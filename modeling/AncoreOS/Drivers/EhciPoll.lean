import AncoreOS.Drivers.EhciSchedule

/-!
# What a bulk transfer waits for

`ehci_submit_bulk_simple` looks at the token in the overlay until it has an answer.  A
`BulkTrace` is what it looks at: the tokens, one for each look, and the times.  The wait ends
at the first look that does not find an active transfer without an error and in time
(`BulkTrace.Ends`), and its result depends on the token alone (`bulkResult`).

The loop asks whether the transfer is active before it asks for errors.  A controller that halts
clears the Active bit and sets the error bits at once, so the loop never sees the error, and the
call succeeds (`bulk_success_iff`).
-/

namespace AncoreOS.Drivers

open ByteMemory AncoreOS.Mm

/-- Bit 7 of a token. -/
def Active (token : BitVec 32) : Prop := token &&& (1#32 <<< 7) ≠ 0

/-- The bits that the loop takes for a failure. -/
def Failed (token : BitVec 32) : Prop := token &&& 0x7E ≠ 0

instance (token : BitVec 32) : Decidable (Active token) := inferInstanceAs (Decidable (_ ≠ _))

instance (token : BitVec 32) : Decidable (Failed token) := inferInstanceAs (Decidable (_ ≠ _))

/-! ### Traces -/

structure BulkTrace where
  start : BitVec 32
  token : Nat → BitVec 32
  time : Nat → BitVec 32

namespace BulkTrace

/-- After this look the loop goes on. -/
def GoesOn (t : BulkTrace) (timeout : BitVec 32) (k : Nat) : Prop :=
  Active (t.token k) ∧ ¬Failed (t.token k) ∧ ¬t.time k - t.start > timeout

/-- The look at which the loop ends. -/
structure Ends (t : BulkTrace) (timeout : BitVec 32) (k : Nat) : Prop where
  before : ∀ i < k, t.GoesOn timeout i
  last : ¬t.GoesOn timeout k

theorem Ends.unique {t : BulkTrace} {timeout : BitVec 32} {k k' : Nat} (h : t.Ends timeout k)
    (h' : t.Ends timeout k') : k = k' := by
  by_contra hne
  rcases Nat.lt_or_gt_of_ne hne with hlt | hlt
  · exact h.last (h'.before k hlt)
  · exact h'.last (h.before k' hlt)

/-- The trace from the next look on. -/
def tail (t : BulkTrace) : BulkTrace :=
  ⟨t.start, fun k => t.token (k + 1), fun k => t.time (k + 1)⟩

theorem ends_zero {t : BulkTrace} {timeout : BitVec 32} :
    t.Ends timeout 0 ↔ ¬t.GoesOn timeout 0 :=
  ⟨Ends.last, fun h => ⟨fun _ hi => absurd hi (Nat.not_lt_zero _), h⟩⟩

theorem ends_succ {t : BulkTrace} {timeout : BitVec 32} {k : Nat} :
    t.Ends timeout (k + 1) ↔ t.GoesOn timeout 0 ∧ t.tail.Ends timeout k := by
  constructor
  · intro h
    exact ⟨h.before 0 (Nat.succ_pos k), fun i hi => h.before (i + 1) (Nat.succ_lt_succ hi), h.last⟩
  · rintro ⟨hzero, htail⟩
    refine ⟨fun i hi => ?_, htail.last⟩
    cases i with
    | zero => exact hzero
    | succ i => exact htail.before i (Nat.lt_of_succ_lt_succ hi)

end BulkTrace

/-- What the call returns when the last look finds the token. -/
def bulkResult (token : BitVec 32) : Int :=
  if ¬Active token then 0 else if Failed token then -3 else -2

section Result

variable {token : BitVec 32}

theorem bulkResult_idle (h : ¬Active token) : bulkResult token = 0 := if_pos h

theorem bulkResult_failed (h : Active token) (hfailed : Failed token) : bulkResult token = -3 :=
  (if_neg (not_not.mpr h)).trans (if_pos hfailed)

theorem bulkResult_late (h : Active token) (hfailed : ¬Failed token) : bulkResult token = -2 :=
  (if_neg (not_not.mpr h)).trans (if_neg hfailed)

theorem bulkResult_eq_zero_iff : bulkResult token = 0 ↔ ¬Active token := by
  refine ⟨fun hzero hactive => ?_, bulkResult_idle⟩
  by_cases hfailed : Failed token
  · rw [bulkResult_failed hactive hfailed] at hzero
    exact absurd hzero (by decide)
  · rw [bulkResult_late hactive hfailed] at hzero
    exact absurd hzero (by decide)

end Result

/-! ### The loop -/

section Poll

variable {σ : Type*} {b : Limine} {C : Ehc σ} {page buf : Word} {len : Nat}
  {start timeout : BitVec 32}

variable (C page buf len) in
/-- What a round of the loop that goes on leaves. -/
def bulkRound (s : Ehci σ) : Ehci σ :=
  let s := s.transfer C page buf len
  Ehci.delay C { s with dev := (C.getTimeMs s.dev).2 } 100

variable (C page buf len) in
/-- The driver at a look. -/
def bulkLook : Nat → Ehci σ → Ehci σ
  | 0, s => s.transfer C page buf len
  | k + 1, s => bulkLook k (bulkRound C page buf len s)

variable (C page buf len start) in
/-- What the loop sees when it starts in a state. -/
def pollTrace (s : Ehci σ) : BulkTrace where
  start := start
  token k := load32 (bulkLook C page buf len k s).mem (page + 24)
  time k := (C.getTimeMs (bulkLook C page buf len k s).dev).1

theorem pollTrace_tail (s : Ehci σ) : (pollTrace C page buf len start s).tail =
    pollTrace C page buf len start (bulkRound C page buf len s) := rfl

theorem bulkWait_goesOn {s : Ehci σ} (h : (pollTrace C page buf len start s).GoesOn timeout 0)
    (fuel : Nat) : bulkWait b C page buf len start timeout (fuel + 1) s =
      bulkWait b C page buf len start timeout fuel (bulkRound C page buf len s) :=
  (if_neg h.1).trans ((if_neg h.2.1).trans (if_neg h.2.2))

/-- The loop up to the look at which it ends. -/
theorem bulkWait_of_ends {fuel k : Nat} {s : Ehci σ} (hfuel : k < fuel)
    (h : (pollTrace C page buf len start s).Ends timeout k) :
    ∃ s', bulkWait b C page buf len start timeout fuel s =
      some (bulkResult ((pollTrace C page buf len start s).token k), s') := by
  induction fuel generalizing k s with
  | zero => exact absurd hfuel (Nat.not_lt_zero k)
  | succ fuel ih =>
    cases k with
    | zero =>
      by_cases hactive : Active ((pollTrace C page buf len start s).token 0)
      · by_cases hfailed : Failed ((pollTrace C page buf len start s).token 0)
        · rw [bulkResult_failed hactive hfailed]
          exact ⟨_, (if_neg hactive).trans (if_pos hfailed)⟩
        · have hlate : (pollTrace C page buf len start s).time 0 - start > timeout := by
            by_contra hlate
            exact h.last ⟨hactive, hfailed, hlate⟩
          rw [bulkResult_late hactive hfailed]
          exact ⟨_, (if_neg hactive).trans ((if_neg hfailed).trans (if_pos hlate))⟩
      · rw [bulkResult_idle hactive]
        exact ⟨_, if_pos (not_not.mp hactive)⟩
    | succ k =>
      obtain ⟨hon, htail⟩ := BulkTrace.ends_succ.mp h
      rw [pollTrace_tail] at htail
      rw [bulkWait_goesOn hon]
      exact ih (Nat.lt_of_succ_lt_succ hfuel) htail

/-- A loop that has a result has ended. -/
theorem ends_of_bulkWait {fuel : Nat} {s s' : Ehci σ} {r : Int}
    (hrun : bulkWait b C page buf len start timeout fuel s = some (r, s')) :
    ∃ k, k < fuel ∧ (pollTrace C page buf len start s).Ends timeout k := by
  induction fuel generalizing s with
  | zero => exact absurd hrun (Option.some_ne_none _).symm
  | succ fuel ih =>
    by_cases hon : (pollTrace C page buf len start s).GoesOn timeout 0
    · rw [bulkWait_goesOn hon] at hrun
      obtain ⟨k, hk, hends⟩ := ih hrun
      exact ⟨k + 1, Nat.succ_lt_succ hk, BulkTrace.ends_succ.mpr ⟨hon, hends⟩⟩
    · exact ⟨0, Nat.succ_pos fuel, BulkTrace.ends_zero.mpr hon⟩

/-- The words of the page are what the controller leaves there. -/
theorem load32_transfer {o : Nat} (hpage : PageAligned page) (ho : o + 4 ≤ 4096) (s : Ehci σ) :
    load32 (s.transfer C page buf len).mem (page + BitVec.ofNat 64 o) =
      load32 (C.dma page s.mem s.dev).1 (page + BitVec.ofNat 64 o) :=
  load32_congr fun _ hx => if_pos (Or.inl (pageOf_of_inRange hpage hx ho))

/-! ### The call -/

section Call

variable (b C) (devaddr epAddr : BitVec 8) (data : Word) (size : Word) (dirIn : Bool)

/-- The page, the time and the state with which the call starts to wait, if it gets there. -/
def bulkStart (s : Ehci σ) : Option (Word × BitVec 32 × Ehci σ) :=
  if s.asyncListHead = 0 then none
  else
    let (page, pmm) := palloc b s.pmm
    if page = 0 then none
    else
      let head := b.deref s.asyncListHead
      let m := bulkSetup page (b.deref data) devaddr epAddr size dirIn pmm.mem
      let m := store32 m page (load32 m head)
      let m := store32 m head (page.setWidth 32 ||| 0x2)
      let s := { s with pmm := { pmm with mem := m } }
      some (page, (C.getTimeMs s.dev).1, { s with dev := (C.getTimeMs s.dev).2 })

/-- What the call sees while it waits. -/
def bulkTrace (s : Ehci σ) : Option BulkTrace :=
  (bulkStart b C devaddr epAddr data size dirIn s).map fun x =>
    pollTrace C x.1 (b.deref data) size.toNat x.2.1 x.2.2

variable {b C devaddr epAddr data size dirIn}

theorem submit_of_start {s s₁ : Ehci σ} {page : Word} {start : BitVec 32} (fuel : Nat)
    (timeout : BitVec 32)
    (hstart : bulkStart b C devaddr epAddr data size dirIn s = some (page, start, s₁)) :
    ehciSubmitBulkSimple b C fuel devaddr epAddr data size dirIn timeout s =
      bulkWait b C page (b.deref data) size.toNat start timeout fuel s₁ := by
  unfold bulkStart at hstart
  unfold ehciSubmitBulkSimple
  split at hstart
  · exact absurd hstart (Option.some_ne_none _).symm
  · rename_i hhead
    rw [if_neg hhead]
    dsimp only at hstart ⊢
    split at hstart
    · exact absurd hstart (Option.some_ne_none _).symm
    · rename_i hpage
      obtain ⟨rfl, rfl, rfl⟩ := Option.some.inj hstart
      rw [if_neg hpage]

theorem submit_of_no_start {s : Ehci σ} (fuel : Nat) (timeout : BitVec 32)
    (hstart : bulkStart b C devaddr epAddr data size dirIn s = none) :
    ∃ s', ehciSubmitBulkSimple b C fuel devaddr epAddr data size dirIn timeout s = some (-1, s') := by
  unfold bulkStart at hstart
  unfold ehciSubmitBulkSimple
  split at hstart
  · rename_i hhead
    exact ⟨_, if_pos hhead⟩
  · rename_i hhead
    rw [if_neg hhead]
    dsimp only at hstart ⊢
    split at hstart
    · rename_i hpage
      exact ⟨_, if_pos hpage⟩
    · exact absurd hstart (Option.some_ne_none _)

theorem bulkStart_of_ready {s : Ehci σ} {page : Word} {pmm : Pmm} (hhead : s.asyncListHead ≠ 0)
    (hpalloc : palloc b s.pmm = (page, pmm)) (hpage : page ≠ 0) :
    ∃ s₁, bulkStart b C devaddr epAddr data size dirIn s =
      some (page, (C.getTimeMs s.dev).1, s₁) := by
  unfold bulkStart
  rw [if_neg hhead, hpalloc]
  exact ⟨_, if_neg hpage⟩

/-- **The result of a call is the one for the token at which it ends.** -/
theorem submit_of_ends {s : Ehci σ} {t : BulkTrace} {timeout : BitVec 32} {fuel k : Nat}
    (htrace : bulkTrace b C devaddr epAddr data size dirIn s = some t) (hends : t.Ends timeout k)
    (hfuel : k < fuel) :
    ∃ s', ehciSubmitBulkSimple b C fuel devaddr epAddr data size dirIn timeout s =
      some (bulkResult (t.token k), s') := by
  obtain ⟨⟨page, start, s₁⟩, hstart, rfl⟩ := Option.map_eq_some_iff.mp htrace
  rw [submit_of_start fuel timeout hstart]
  exact bulkWait_of_ends hfuel hends

/-- A call that returns `0` has waited, and the token at which it ended is not active. -/
theorem ends_of_submit {s s' : Ehci σ} {timeout : BitVec 32} {fuel : Nat}
    (hrun : ehciSubmitBulkSimple b C fuel devaddr epAddr data size dirIn timeout s = some (0, s')) :
    ∃ t k, bulkTrace b C devaddr epAddr data size dirIn s = some t ∧ t.Ends timeout k ∧
      ¬Active (t.token k) := by
  cases hstart : bulkStart b C devaddr epAddr data size dirIn s with
  | none =>
    obtain ⟨s'', hnone⟩ := submit_of_no_start fuel timeout hstart
    rw [hnone] at hrun
    exact absurd (Prod.mk.inj (Option.some.inj hrun)).1 (by decide)
  | some x =>
    obtain ⟨page, start, s₁⟩ := x
    rw [submit_of_start fuel timeout hstart] at hrun
    obtain ⟨k, hk, hends⟩ := ends_of_bulkWait hrun
    obtain ⟨s'', hresult⟩ := bulkWait_of_ends (b := b) hk hends
    rw [hrun] at hresult
    have hzero := (Prod.mk.inj (Option.some.inj hresult)).1
    exact ⟨_, k, by rw [bulkTrace, hstart]; rfl, hends, bulkResult_eq_zero_iff.mp hzero.symm⟩

/-- **A call that succeeds has seen its transfer end without an error exactly if the token at
which the wait ends is not one that has become inactive and failed at once.** -/
theorem bulk_success_iff (timeout : BitVec 32) (s : Ehci σ) :
    (∀ fuel s', ehciSubmitBulkSimple b C fuel devaddr epAddr data size dirIn timeout s = some (0, s') →
        ∃ t k, bulkTrace b C devaddr epAddr data size dirIn s = some t ∧ t.Ends timeout k ∧
          ¬Active (t.token k) ∧ ¬Failed (t.token k)) ↔
      ∀ t k, bulkTrace b C devaddr epAddr data size dirIn s = some t → t.Ends timeout k →
        ¬(¬Active (t.token k) ∧ Failed (t.token k)) := by
  constructor
  · rintro h t k htrace hends ⟨hidle, hfailed⟩
    obtain ⟨s', hrun⟩ := submit_of_ends htrace hends (Nat.lt_succ_self k)
    rw [bulkResult_eq_zero_iff.mpr hidle] at hrun
    obtain ⟨t', k', htrace', hends', _, hclear⟩ := h _ _ hrun
    obtain rfl := Option.some.inj (htrace.symm.trans htrace')
    obtain rfl := hends.unique hends'
    exact hclear hfailed
  · intro h fuel s' hrun
    obtain ⟨t, k, htrace, hends, hidle⟩ := ends_of_submit hrun
    exact ⟨t, k, htrace, hends, hidle, fun hfailed => h t k htrace hends ⟨hidle, hfailed⟩⟩

end Call

end Poll

/-- A controller that halts at once. -/
def exampleHalt : Ehc (BitVec 32) :=
  { exampleEhc with dma := fun page m dev => (store32 m (page + 24) 0x40, dev) }

/-- The schedule is set up, and there is another page. -/
theorem exampleScheduled_ready :
    ∃ pmm page pmm', (exampleScheduled pmm).ehci.asyncListHead ≠ 0 ∧
      palloc exampleMap (exampleScheduled pmm).ehci.pmm = (page, pmm') ∧ page ≠ 0 ∧
      PageAligned page := by
  obtain ⟨pmm, L, hinit, hinv, hlen⟩ := exampleMap_start
  obtain ⟨L₀, h₀⟩ := ehciStart_inv exampleMap_ok (fun _ => 0) hinit (0 : BitVec 32)
  obtain ⟨L₁, h₁⟩ := ehciInitAsyncList_inv (C := exampleEhc) exampleMap_ok h₀
  obtain ⟨page, L', rfl⟩ := exampleScheduled_free pmm h₁.1
  obtain ⟨pmm', hpalloc, _⟩ := h₁.1.palloc
  refine ⟨pmm, page, pmm', ?_, hpalloc, h₁.1.ne_zero exampleMap_ok List.mem_cons_self,
    ((h₁.1.usable page).mpr List.mem_cons_self).aligned⟩
  have hne : (palloc exampleMap pmm).1 ≠ 0 := hinv.palloc_ne_zero exampleMap_ok (by omega)
  have hhead : (exampleScheduled pmm).ehci.asyncListHead =
      (palloc exampleMap pmm).1 + exampleMap.hhdmOffset :=
    ehciInitAsyncList_head (C := exampleEhc) (s := ehciStart pmm 0) hne
  obtain ⟨f, L, rfl⟩ := List.exists_cons_of_ne_nil (List.ne_nil_of_length_pos (by omega : 0 < L.length))
  obtain ⟨_, hfirst, _⟩ := hinv.palloc
  rw [hhead, hfirst]
  exact exampleMap_ok.hhdm f ((hinv.usable f).mpr List.mem_cons_self)

/-- The read of a sector succeeds with a token that says that the transfer has failed. -/
theorem exampleHalt_not_clear :
    ¬∀ (timeout : BitVec 32) (s : Ehci (BitVec 32)) (fuel : Nat) (s' : Ehci (BitVec 32)),
      ehciSubmitBulkSimple exampleMap exampleHalt fuel 1 0x81 0x7000 512 true timeout s =
        some (0, s') →
      ∃ t k, bulkTrace exampleMap exampleHalt 1 0x81 0x7000 512 true s = some t ∧
        t.Ends timeout k ∧ ¬Active (t.token k) ∧ ¬Failed (t.token k) := by
  intro h
  obtain ⟨pmm, page, pmm', hhead, hpalloc, hpage, haligned⟩ := exampleScheduled_ready
  obtain ⟨s₁, hstart⟩ : ∃ s₁, bulkStart exampleMap exampleHalt 1 0x81 0x7000 512 true
      (exampleScheduled pmm).ehci = some (page, _, s₁) := bulkStart_of_ready hhead hpalloc hpage
  have htrace := congrArg (Option.map fun x : Word × BitVec 32 × Ehci (BitVec 32) =>
    pollTrace exampleHalt x.1 (exampleMap.deref 0x7000) (512 : Word).toNat x.2.1 x.2.2) hstart
  obtain ⟨t, htoken, htrace⟩ : ∃ t : BulkTrace, t.token 0 = 0x40 ∧
      bulkTrace exampleMap exampleHalt 1 0x81 0x7000 512 true (exampleScheduled pmm).ehci = some t := by
    refine ⟨_, ?_, htrace⟩
    exact (load32_transfer (o := 24) haligned (by decide) s₁).trans (load32_store32_same _ _ _)
  have hends : t.Ends 1000 0 := by
    refine BulkTrace.ends_zero.mpr fun hon => hon.1 ?_
    rw [htoken]
    decide
  obtain ⟨s', hrun⟩ := submit_of_ends htrace hends Nat.one_pos
  rw [htoken] at hrun
  obtain ⟨t', k, htrace', hends', _, hclear⟩ := h 1000 _ 1 s' hrun
  obtain rfl := Option.some.inj (htrace.symm.trans htrace')
  obtain rfl := hends.unique hends'
  rw [htoken] at hclear
  exact absurd hclear (by decide)

end AncoreOS.Drivers
