import Mathlib.Logic.Function.Basic
import Mathlib.Data.List.Nodup
import Mathlib.Tactic

/-!
# Cells whose writes wait

A grid of cells before a slow display: a write waits in a queue, and `map` says where the write that
waits for a cell stands there.  `Buffer.view` is what the cells are meant to hold.

In a sound buffer each cell has at most one entry, so that the queue is no longer than the grid
(`Sound.length_le`).  A write is seen in its own cell only (`Sound.view_push`).  To drain the queue
changes no view and leaves nothing that waits (`Linked.view_drain`, `Linked.map_drain`).
-/

namespace PendingCells

variable {α : Type*}

structure Buffer (α : Type*) where
  grid : Nat → α
  queue : List (Nat × α)
  map : Nat → Option Nat

namespace Buffer

/-- What a cell is meant to hold. -/
def view (b : Buffer α) (i : Nat) : α :=
  match b.map i with
  | some q =>
      match b.queue[q]? with
      | some entry => entry.2
      | none => b.grid i
  | none => b.grid i

/-- Write to a cell.  What it holds already is not written again. -/
def push [DecidableEq α] (b : Buffer α) (i : Nat) (v : α) : Buffer α :=
  match b.map i with
  | some q => { b with queue := b.queue.modify q fun entry => (entry.1, v) }
  | none =>
      if b.grid i = v then b
      else { b with queue := b.queue ++ [(i, v)], map := Function.update b.map i (some b.queue.length) }

/-- Take one entry of the queue to the grid, unless it is there already. -/
def settle (b : Buffer α) (entry : Nat × α) : Buffer α :=
  if b.map entry.1 = none then b
  else { b with grid := Function.update b.grid entry.1 entry.2, map := Function.update b.map entry.1 none }

def drain (b : Buffer α) : Buffer α := b.queue.foldl settle b

/-- What waits for a cell stands where `map` says. -/
def Linked (b : Buffer α) : Prop := ∀ i q, b.map i = some q → ∃ v, b.queue[q]? = some (i, v)

/-- The entries of the queue are those that the cells of the grid wait for. -/
structure Sound (n : Nat) (b : Buffer α) : Prop where
  linked : b.Linked
  waits : ∀ (q i : Nat) (v : α), b.queue[q]? = some (i, v) → b.map i = some q
  range : ∀ (q i : Nat) (v : α), b.queue[q]? = some (i, v) → i < n

variable {b : Buffer α} {n i : Nat} {v : α}

theorem view_of_none (h : b.map i = none) : b.view i = b.grid i := by
  rw [view, h]

theorem view_of_some {q : Nat} (h : b.map i = some q) (hq : b.queue[q]? = some (i, v)) : b.view i = v := by
  rw [view, h]
  dsimp only
  rw [hq]

/-! ### The queue -/

theorem Sound.nodup (h : Sound n b) : (b.queue.map Prod.fst).Nodup := by
  rw [List.nodup_iff_getElem?_ne_getElem?]
  intro p q hpq hq heq
  rw [List.length_map] at hq
  have hp : p < b.queue.length := hpq.trans hq
  rw [List.getElem?_map, List.getElem?_map, List.getElem?_eq_getElem hp, List.getElem?_eq_getElem hq] at heq
  have hkey : b.queue[p].1 = b.queue[q].1 := Option.some.inj heq
  have hmp : b.map b.queue[p].1 = some p := h.waits p _ b.queue[p].2 (List.getElem?_eq_getElem hp)
  have hmq : b.map b.queue[q].1 = some q := h.waits q _ b.queue[q].2 (List.getElem?_eq_getElem hq)
  rw [hkey, hmq] at hmp
  exact hpq.ne' (Option.some.inj hmp)

/-- **The queue is no longer than the grid.** -/
theorem Sound.length_le (h : Sound n b) : b.queue.length ≤ n := by
  have hsub : b.queue.map Prod.fst ⊆ List.range n := by
    intro i hi
    obtain ⟨entry, hmem, rfl⟩ := List.mem_map.mp hi
    obtain ⟨q, hq⟩ := List.mem_iff_getElem?.mp hmem
    exact List.mem_range.mpr (h.range q entry.1 entry.2 hq)
  have hle := h.nodup.length_le_of_subset hsub
  rwa [List.length_map, List.length_range] at hle

theorem sound_empty (grid : Nat → α) : Sound n { grid := grid, queue := [], map := fun _ => none } where
  linked := by
    intro i q h
    cases h
  waits := by
    intro q i v h
    cases h
  range := by
    intro q i v h
    cases h

/-! ### A write -/

section Push

variable [DecidableEq α]

theorem Sound.push (h : Sound n b) (hi : i < n) (v : α) : Sound n (b.push i v) := by
  cases hmap : b.map i with
  | some q =>
    have hpush : b.push i v = { b with queue := b.queue.modify q fun entry => (entry.1, v) } := by
      rw [Buffer.push, hmap]
    have hget : ∀ (p j : Nat) (u : α), (b.queue.modify q fun entry => (entry.1, v))[p]? = some (j, u) →
        ∃ u', b.queue[p]? = some (j, u') := by
      intro p j u hp
      rw [List.getElem?_modify] at hp
      obtain ⟨entry, hentry, heq⟩ := Option.map_eq_some_iff.mp hp
      refine ⟨entry.2, ?_⟩
      rw [hentry]
      by_cases hqp : q = p
      · rw [if_pos hqp] at heq
        rw [← (Prod.mk.inj heq).1]
      · rw [if_neg hqp] at heq
        rw [show entry = (j, u) from heq]
    rw [hpush]
    refine ⟨?_, ?_, ?_⟩
    · intro j p hj
      obtain ⟨u, hu⟩ := h.linked j p hj
      refine ⟨if q = p then v else u, ?_⟩
      change (b.queue.modify q fun entry => (entry.1, v))[p]? = _
      by_cases hqp : q = p
      · rw [if_pos hqp, hqp, List.getElem?_modify_eq, hu]
        rfl
      · rw [if_neg hqp, List.getElem?_modify_ne _ _ hqp, hu]
    · intro p j u hp
      obtain ⟨u', hu'⟩ := hget p j u hp
      exact h.waits p j u' hu'
    · intro p j u hp
      obtain ⟨u', hu'⟩ := hget p j u hp
      exact h.range p j u' hu'
  | none =>
    by_cases hsame : b.grid i = v
    · have hpush : b.push i v = b := by
        rw [Buffer.push, hmap]
        exact if_pos hsame
      rwa [hpush]
    · have hpush : b.push i v = { b with queue := b.queue ++ [(i, v)]
                                         map := Function.update b.map i (some b.queue.length) } := by
        rw [Buffer.push, hmap]
        exact if_neg hsame
      have hget : ∀ (p j : Nat) (u : α), (b.queue ++ [(i, v)])[p]? = some (j, u) →
          b.queue[p]? = some (j, u) ∨ p = b.queue.length ∧ j = i := by
        intro p j u hp
        rcases lt_trichotomy p b.queue.length with hlt | heq | hgt
        · rw [List.getElem?_append_left hlt] at hp
          exact Or.inl hp
        · rw [heq, List.getElem?_concat_length] at hp
          exact Or.inr ⟨heq, (Prod.mk.inj (Option.some.inj hp)).1.symm⟩
        · rw [List.getElem?_eq_none (by rw [List.length_append, List.length_singleton]; omega)] at hp
          cases hp
      rw [hpush]
      refine ⟨?_, ?_, ?_⟩
      · intro j p hj
        change Function.update b.map i (some b.queue.length) j = some p at hj
        change ∃ u, (b.queue ++ [(i, v)])[p]? = some (j, u)
        by_cases hji : j = i
        · rw [hji, Function.update_self] at hj
          rw [← Option.some.inj hj, hji]
          exact ⟨v, List.getElem?_concat_length⟩
        · rw [Function.update_of_ne hji] at hj
          obtain ⟨u, hu⟩ := h.linked j p hj
          refine ⟨u, ?_⟩
          rw [List.getElem?_append_left (List.getElem?_eq_some_iff.mp hu).1]
          exact hu
      · intro p j u hp
        change Function.update b.map i (some b.queue.length) j = some p
        rcases hget p j u hp with hold | ⟨rfl, rfl⟩
        · have hj := h.waits p j u hold
          have hji : j ≠ i := by
            rintro rfl
            rw [hmap] at hj
            cases hj
          rw [Function.update_of_ne hji]
          exact hj
        · exact Function.update_self ..
      · intro p j u hp
        rcases hget p j u hp with hold | ⟨-, rfl⟩
        · exact h.range p j u hold
        · exact hi

/-- **A write is seen in its own cell only.** -/
theorem Sound.view_push (h : Sound n b) (i : Nat) (v : α) : (b.push i v).view = Function.update b.view i v := by
  funext j
  cases hmap : b.map i with
  | some q =>
    have hpush : b.push i v = { b with queue := b.queue.modify q fun entry => (entry.1, v) } := by
      rw [Buffer.push, hmap]
    rw [hpush]
    obtain ⟨w, hw⟩ := h.linked i q hmap
    by_cases hji : j = i
    · rw [hji, Function.update_self]
      refine view_of_some hmap ?_
      change (b.queue.modify q fun entry => (entry.1, v))[q]? = _
      rw [List.getElem?_modify_eq, hw]
      rfl
    · rw [Function.update_of_ne hji]
      cases hj : b.map j with
      | none => rw [view_of_none hj, view_of_none (by exact hj)]
      | some p =>
        obtain ⟨u, hu⟩ := h.linked j p hj
        have hqp : q ≠ p := by
          rintro rfl
          rw [hw] at hu
          exact hji (Prod.mk.inj (Option.some.inj hu)).1.symm
        rw [view_of_some hj hu]
        refine view_of_some hj ?_
        change (b.queue.modify q fun entry => (entry.1, v))[p]? = _
        rw [List.getElem?_modify_ne _ _ hqp]
        exact hu
  | none =>
    by_cases hsame : b.grid i = v
    · have hpush : b.push i v = b := by
        rw [Buffer.push, hmap]
        exact if_pos hsame
      rw [hpush, ← hsame, ← view_of_none hmap, Function.update_eq_self]
    · have hpush : b.push i v = { b with queue := b.queue ++ [(i, v)]
                                         map := Function.update b.map i (some b.queue.length) } := by
        rw [Buffer.push, hmap]
        exact if_neg hsame
      rw [hpush]
      by_cases hji : j = i
      · rw [hji, Function.update_self]
        exact view_of_some (Function.update_self ..) List.getElem?_concat_length
      · rw [Function.update_of_ne hji]
        have hmapj : Function.update b.map i (some b.queue.length) j = b.map j := Function.update_of_ne hji ..
        cases hj : b.map j with
        | none =>
          rw [view_of_none hj]
          exact view_of_none (hmapj.trans hj)
        | some p =>
          obtain ⟨u, hu⟩ := h.linked j p hj
          rw [view_of_some hj hu]
          refine view_of_some (hmapj.trans hj) ?_
          exact (List.getElem?_append_left (List.getElem?_eq_some_iff.mp hu).1).trans hu

end Push

/-! ### The drain -/

theorem settle_queue (entry : Nat × α) : (b.settle entry).queue = b.queue := by
  unfold settle
  split <;> rfl

theorem settle_map_self (entry : Nat × α) : (b.settle entry).map entry.1 = none := by
  unfold settle
  split
  · assumption
  · exact Function.update_self ..

theorem settle_map_none (entry : Nat × α) (h : b.map i = none) : (b.settle entry).map i = none := by
  unfold settle
  split
  · exact h
  · by_cases hi : i = entry.1
    · rw [hi]
      exact Function.update_self ..
    · exact (Function.update_of_ne hi ..).trans h

theorem Linked.settle (h : b.Linked) (entry : Nat × α) : (b.settle entry).Linked := by
  intro i q hq
  rw [settle_queue]
  unfold Buffer.settle at hq
  split at hq
  · exact h i q hq
  · by_cases hi : i = entry.1
    · rw [hi] at hq
      change Function.update b.map entry.1 none entry.1 = some q at hq
      rw [Function.update_self] at hq
      cases hq
    · change Function.update b.map entry.1 none i = some q at hq
      rw [Function.update_of_ne hi] at hq
      exact h i q hq

theorem Linked.view_settle (h : b.Linked) (hnodup : (b.queue.map Prod.fst).Nodup) {entry : Nat × α}
    (hentry : entry ∈ b.queue) : (b.settle entry).view = b.view := by
  funext i
  unfold Buffer.settle
  split
  · rfl
  · rename_i hsome
    by_cases hi : i = entry.1
    · obtain ⟨q, hq⟩ := Option.ne_none_iff_exists'.mp hsome
      obtain ⟨v, hv⟩ := h entry.1 q hq
      have hmem : (entry.1, v) ∈ b.queue := List.mem_iff_getElem?.mpr ⟨q, hv⟩
      have hval : (entry.1, v) = entry := List.inj_on_of_nodup_map hnodup hmem hentry rfl
      rw [hi, view_of_some hq hv, ← show entry.2 = v from (congrArg Prod.snd hval).symm]
      rw [view_of_none (Function.update_self ..)]
      exact Function.update_self ..
    · have hmap : Function.update b.map entry.1 none i = b.map i := Function.update_of_ne hi ..
      have hgrid : Function.update b.grid entry.1 entry.2 i = b.grid i := Function.update_of_ne hi ..
      unfold view
      dsimp only
      rw [hmap, hgrid]

theorem foldl_settle_map_none (entries : List (Nat × α)) : ∀ b : Buffer α,
    b.map i = none ∨ (∃ entry ∈ entries, entry.1 = i) → (entries.foldl settle b).map i = none := by
  induction entries with
  | nil =>
    rintro b (h | ⟨entry, hentry, -⟩)
    · exact h
    · cases hentry
  | cons entry entries ih =>
    intro b h
    rw [List.foldl_cons]
    apply ih
    rcases h with h | ⟨entry', hmem, rfl⟩
    · exact Or.inl (settle_map_none entry h)
    · rcases List.mem_cons.mp hmem with rfl | hmem
      · exact Or.inl (settle_map_self entry')
      · exact Or.inr ⟨entry', hmem, rfl⟩

theorem Linked.foldl_settle (entries : List (Nat × α)) : ∀ {b : Buffer α}, b.Linked →
    (b.queue.map Prod.fst).Nodup → (∀ entry ∈ entries, entry ∈ b.queue) →
    (entries.foldl Buffer.settle b).Linked ∧ (entries.foldl Buffer.settle b).view = b.view := by
  induction entries with
  | nil => exact fun h _ _ => ⟨h, rfl⟩
  | cons entry entries ih =>
    intro b h hnodup hmem
    have hentry := hmem entry (List.mem_cons_self ..)
    obtain ⟨hlinked, hview⟩ := ih (h.settle entry) (by rwa [settle_queue]) fun e he => by
      rw [settle_queue]
      exact hmem e (List.mem_cons_of_mem _ he)
    exact ⟨hlinked, hview.trans (h.view_settle hnodup hentry)⟩

/-- **Nothing waits after a drain.** -/
theorem Linked.map_drain (h : b.Linked) (i : Nat) : b.drain.map i = none := by
  apply foldl_settle_map_none
  cases hi : b.map i with
  | none => exact Or.inl rfl
  | some q =>
    obtain ⟨v, hv⟩ := h i q hi
    exact Or.inr ⟨(i, v), List.mem_iff_getElem?.mpr ⟨q, hv⟩, rfl⟩

/-- **A drain changes no cell's view**, and the grid is the view then. -/
theorem Linked.grid_drain (h : b.Linked) (hnodup : (b.queue.map Prod.fst).Nodup) : b.drain.grid = b.view := by
  funext i
  rw [← view_of_none (h.map_drain i)]
  exact congrFun (h.foldl_settle b.queue hnodup fun _ he => he).2 i

end Buffer

end PendingCells
