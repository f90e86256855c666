import Mathlib.Data.List.Nodup
import Mathlib.Tactic

/-!
# Doubly linked lists

`Linked next prev null before l` says that following `next` visits the nodes `l` and then `null`,
and that `prev` of every node is the one before it, `before` for the first one.  The links may be
stored anywhere: `next` and `prev` are whatever reads them.

A list does not depend on the links of other nodes (`Linked.congr`).  It takes a node at its front
(`Linked.push`) and loses any one of its nodes (`Linked.remove`), by the two stores of every such
list.
-/

namespace LinkedLists

variable {α : Type*} [DecidableEq α] {next prev next' prev' : α → α} {null before x : α} {l s t : List α}

def Linked (next prev : α → α) (null : α) : α → List α → Prop
  | _, [] => True
  | before, x :: l => prev x = before ∧ next x = l.headD null ∧ Linked next prev null x l

omit [DecidableEq α] in
/-- A list survives every change of the links of other nodes. -/
theorem Linked.congr (h : Linked next prev null before l) (hnext : ∀ x ∈ l, next' x = next x)
    (hprev : ∀ x ∈ l, prev' x = prev x) : Linked next' prev' null before l := by
  induction l generalizing before with
  | nil => exact trivial
  | cons x l ih =>
    obtain ⟨hp, hn, hrest⟩ := h
    refine ⟨?_, ?_, ih hrest (fun y hy => ?_) fun y hy => ?_⟩
    · rw [hprev x List.mem_cons_self, hp]
    · rw [hnext x List.mem_cons_self, hn]
    · exact hnext y (List.mem_cons_of_mem x hy)
    · exact hprev y (List.mem_cons_of_mem x hy)

/-- **A node goes to the front.** -/
theorem Linked.push (h : Linked next prev null before l) (hx : x ∉ l) (hn : l.Nodup)
    (hnx : next' x = l.headD null) (hpx : prev' x = before)
    (hnext : ∀ y ∈ l, next' y = next y)
    (hprev : ∀ y ∈ l, prev' y = if y = l.headD null then x else prev y) :
    Linked next' prev' null before (x :: l) := by
  refine ⟨hpx, hnx, ?_⟩
  cases l with
  | nil => exact trivial
  | cons y l =>
    obtain ⟨-, hny, hrest⟩ := h
    refine ⟨?_, ?_, hrest.congr (fun z hz => ?_) fun z hz => ?_⟩
    · rw [hprev y List.mem_cons_self]
      exact if_pos rfl
    · rw [hnext y List.mem_cons_self, hny]
    · exact hnext z (List.mem_cons_of_mem y hz)
    · rw [hprev z (List.mem_cons_of_mem y hz), if_neg]
      exact ne_of_mem_of_not_mem hz (List.nodup_cons.mp hn).1

omit [DecidableEq α] in
theorem Linked.next_eq (h : Linked next prev null before (s ++ x :: t)) :
    next x = t.headD null := by
  induction s generalizing before with
  | nil => exact h.2.1
  | cons y s ih => exact ih h.2.2

omit [DecidableEq α] in
theorem Linked.prev_eq (h : Linked next prev null before (s ++ x :: t)) :
    prev x = s.getLastD before := by
  induction s generalizing before with
  | nil => exact h.1
  | cons y s ih =>
    rw [ih h.2.2, List.getLastD_cons]

/-- **A node goes out**, and its two neighbours are linked with one another. -/
theorem Linked.remove (h : Linked next prev null before (s ++ x :: t)) (hn : (s ++ x :: t).Nodup)
    (hnull : null ∉ s ++ x :: t) (hbefore : before ∉ s ++ x :: t)
    (hnext : ∀ y ∈ s ++ t, next' y = if y = prev x then next x else next y)
    (hprev : ∀ y ∈ s ++ t, prev' y = if y = next x then prev x else prev y) :
    Linked next' prev' null before (s ++ t) := by
  induction s generalizing before with
  | nil =>
    obtain ⟨hpx, hnx, hrest⟩ := h
    simp only [List.nil_append, List.nodup_cons, List.mem_cons, not_or] at *
    cases t with
    | nil => exact trivial
    | cons y t =>
      obtain ⟨hpy, hny, htail⟩ := hrest
      simp only [List.mem_cons, not_or, List.nodup_cons, List.headD_cons] at *
      have hkeep : ∀ z ∈ t, next' z = next z ∧ prev' z = prev z := by
        intro z hz
        have hne : z ≠ prev x := by
          rw [hpx]
          exact ne_of_mem_of_not_mem hz hbefore.2.2
        have hne' : z ≠ next x := by
          rw [hnx]
          exact ne_of_mem_of_not_mem hz hn.2.1
        rw [hnext z (Or.inr hz), hprev z (Or.inr hz), if_neg hne, if_neg hne']
        exact ⟨rfl, rfl⟩
      refine ⟨?_, ?_, htail.congr (fun z hz => (hkeep z hz).1) fun z hz => (hkeep z hz).2⟩
      · rw [hprev y (Or.inl rfl), if_pos hnx.symm, hpx]
      · have hne : y ≠ prev x := by
          rw [hpx]
          exact fun he => hbefore.2.1 he.symm
        rw [hnext y (Or.inl rfl), if_neg hne, hny]
  | cons z s ih =>
    obtain ⟨hpz, hnz, hrest⟩ := h
    have hnx := hrest.next_eq
    have hpx := hrest.prev_eq
    simp only [List.cons_append, List.nodup_cons, List.mem_cons, not_or] at *
    refine ⟨?_, ?_, ih hrest hn.2 hnull.2 hn.1 (fun y hy => ?_) fun y hy => ?_⟩
    · have hne : z ≠ next x := by
        rw [hnx]
        cases t with
        | nil => exact fun he => hnull.1 he.symm
        | cons y t =>
          rintro rfl
          exact hn.1 (by simp)
      rw [hprev z (Or.inl rfl), if_neg hne, hpz]
    · rw [hnext z (Or.inl rfl)]
      cases s with
      | nil =>
        rw [hpx]
        simpa using hnx
      | cons y s =>
        have hne : z ≠ prev x := by
          rw [hpx, List.getLastD_cons]
          rintro rfl
          apply hn.1
          have hmem : s.getLastD y ∈ y :: s := List.getLastD_mem_cons
          exact List.mem_append_left _ hmem
        rw [if_neg hne, hnz]
        rfl
    · exact hnext y (Or.inr hy)
    · exact hprev y (Or.inr hy)

end LinkedLists
