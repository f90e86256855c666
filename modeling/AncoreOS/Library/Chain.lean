import Mathlib.Data.List.Basic

/-!
# Null-terminated chains

`Chain next null p l` says that following `next` from `p` visits exactly the
elements of `l`, in order, and then stops at `null`.  It is the shape of a
singly linked list whose links are stored anywhere at all: `next` is whatever
reads a link.

A chain survives every change of the links that spares its own elements
(`Chain.congr`), and it grows at the front (`Chain.push`).  These are the only
rules a list that is used as a stack needs.
-/

variable {α : Type*} {next next' : α → α} {null p : α} {l : List α}

/-- Following `next` from `p` visits `l` and ends at `null`. -/
inductive Chain (next : α → α) (null : α) : α → List α → Prop
  | nil : Chain next null null []
  | cons {p : α} {l : List α} : p ≠ null → Chain next null (next p) l → Chain next null p (p :: l)

namespace Chain

theorem eq_nil_iff (h : Chain next null p l) : l = [] ↔ p = null := by
  cases h with
  | nil => simp
  | cons hp _ => simp [hp]

/-- A chain survives every change of the links of other elements. -/
theorem congr (h : Chain next null p l) (hn : ∀ x ∈ l, next' x = next x) :
    Chain next' null p l := by
  induction h with
  | nil => exact .nil
  | cons hp _ ih =>
    refine .cons hp ?_
    rw [hn _ List.mem_cons_self]
    exact ih (fun x hx => hn x (List.mem_cons_of_mem _ hx))

/-- Linking `q` in front of a chain. -/
theorem push {q : α} (h : Chain next null p l) (hq : q ≠ null) (hlink : next' q = p)
    (hn : ∀ x ∈ l, next' x = next x) : Chain next' null q (q :: l) :=
  .cons hq (hlink ▸ h.congr hn)

/-- Unlinking the first element. -/
theorem tail {q : α} (h : Chain next null p (q :: l)) : p = q ∧ Chain next null (next p) l := by
  cases h with
  | cons _ h => exact ⟨rfl, h⟩

end Chain
