import Mathlib.Data.List.Basic

/-!
# Radix tables

A radix table is a graph of tables: `ent f i` is the entry of the table `f` at
the index `i`, and `dec d e` reads an entry of a table at depth `d` as the
table it points to, or as no table at all.  Nothing is assumed about where the
tables live or how an entry is coded.

A path is a list of indices, **the last index first**, so that a path grows at
its head.  `node p` is the table reached along `p`, and `look p` is the last
entry met on the way: the walk goes down as long as there is a table to go to.

`IsTree` says that down to a given depth no table is reached along two paths.
The table then grows by two kinds of steps.  `Link` puts a fresh empty table
under an entry that pointed nowhere: it adds one node (`Link.node_eq`) and no
walk meets a new marked entry (`Link.find_eq`).  `Leaf` rewrites one entry at
the bottom: it moves no node and changes one walk (`Leaf.find_eq`).
-/

namespace Radix

variable {F I E : Type*} {dec : Nat → E → Option F} {ent ent' : F → I → E} {root : F} {D : Nat}

/-- The table reached along a path. -/
def node (dec : Nat → E → Option F) (ent : F → I → E) (root : F) : List I → Option F
  | [] => some root
  | i :: p => (node dec ent root p).bind fun f => dec p.length (ent f i)

/-- The last entry a walk along the path meets, and its depth. -/
def look (dec : Nat → E → Option F) (ent : F → I → E) (root : F) : List I → Option (Nat × E)
  | [] => none
  | i :: p =>
    match node dec ent root p with
    | some f => some (p.length, ent f i)
    | none => look dec ent root p

/-- The last entry of a walk, when it is marked. -/
def find (mark : E → Bool) (dec : Nat → E → Option F) (ent : F → I → E) (root : F)
    (p : List I) : Option (Nat × E) :=
  (look dec ent root p).filter fun r => mark r.2

/-- Down to depth `D`, no table is reached along two paths. -/
def IsTree (D : Nat) (dec : Nat → E → Option F) (ent : F → I → E) (root : F) : Prop :=
  ∀ p q f, p.length ≤ D → q.length ≤ D → node dec ent root p = some f →
    node dec ent root q = some f → p = q

@[simp] theorem node_nil : node dec ent root [] = some root := rfl

theorem node_cons (i : I) (p : List I) :
    node dec ent root (i :: p) = (node dec ent root p).bind fun f => dec p.length (ent f i) := rfl

theorem node_cons_of_some {i : I} {p : List I} {f : F} (h : node dec ent root p = some f) :
    node dec ent root (i :: p) = dec p.length (ent f i) := by
  rw [node_cons, h]; rfl

theorem node_cons_of_none {i : I} {p : List I} (h : node dec ent root p = none) :
    node dec ent root (i :: p) = none := by
  rw [node_cons, h]; rfl

/-- The parent of a node, and the entry that points to it. -/
theorem exists_parent {i : I} {p : List I} {g : F} (h : node dec ent root (i :: p) = some g) :
    ∃ f, node dec ent root p = some f ∧ dec p.length (ent f i) = some g := by
  rw [node_cons] at h
  exact Option.bind_eq_some_iff.mp h

theorem look_cons_of_some {i : I} {p : List I} {f : F} (h : node dec ent root p = some f) :
    look dec ent root (i :: p) = some (p.length, ent f i) := by
  rw [look, h]

theorem look_cons_of_none {i : I} {p : List I} (h : node dec ent root p = none) :
    look dec ent root (i :: p) = look dec ent root p := by
  rw [look, h]

/-- Nodes depend on the entries of the tables above them only. -/
theorem node_congr (h : ∀ p f, p.length < D → node dec ent root p = some f →
      ∀ i, ent' f i = ent f i) :
    ∀ p, p.length ≤ D → node dec ent' root p = node dec ent root p := by
  intro p
  induction p with
  | nil => intro _; rfl
  | cons i p ih =>
    intro hp
    rw [List.length_cons] at hp
    rw [node_cons, node_cons, ih (by omega)]
    cases hn : node dec ent root p with
    | none => rfl
    | some f => simp only [Option.bind_some, h p f (by omega) hn i]

/-- Below a path with no table there is no table, and a walk goes no further. -/
theorem node_append_of_none {p : List I} (h : node dec ent root p = none) :
    ∀ q, node dec ent root (q ++ p) = none := by
  intro q
  induction q with
  | nil => exact h
  | cons i q ih => exact node_cons_of_none ih

theorem look_append_of_none {p : List I} (h : node dec ent root p = none) :
    ∀ q, look dec ent root (q ++ p) = look dec ent root p := by
  intro q
  induction q with
  | nil => rfl
  | cons i q ih =>
    rw [List.cons_append, look_cons_of_none (node_append_of_none h q)]
    exact ih

/-! ### A fresh table -/

/-- `ent'` is `ent` with the fresh empty table `g` linked at the entry `i₀` of the
table `f₀`, which is the node of `p₀` and pointed nowhere there. -/
structure Link (D : Nat) (dec : Nat → E → Option F) (ent ent' : F → I → E) (root : F)
    (p₀ : List I) (i₀ : I) (f₀ g : F) : Prop where
  parent : node dec ent root p₀ = some f₀
  short : p₀.length < D
  absent : dec p₀.length (ent f₀ i₀) = none
  linked : dec p₀.length (ent' f₀ i₀) = some g
  empty : ∀ d i, dec d (ent' g i) = none
  fresh : ∀ p, p.length ≤ D → node dec ent root p ≠ some g
  same : ∀ p f i, p.length ≤ D → node dec ent root p = some f → (f = f₀ → i ≠ i₀) →
    ent' f i = ent f i
  tree : IsTree D dec ent root

variable {p₀ : List I} {i₀ : I} {f₀ g : F}

/-- **Linking adds exactly one node.** -/
theorem Link.node_eq [DecidableEq I] (h : Link D dec ent ent' root p₀ i₀ f₀ g) :
    ∀ p, p.length ≤ D → node dec ent' root p =
      if p = i₀ :: p₀ then some g else node dec ent root p := by
  intro p
  induction p with
  | nil => intro _; simp
  | cons i p ih =>
    intro hp
    rw [List.length_cons] at hp
    rw [node_cons, ih (by omega)]
    by_cases hnew : p = i₀ :: p₀
    · -- below the new table there is nothing, before and after
      have hold : node dec ent root p = none := by
        rw [hnew, node_cons_of_some h.parent, h.absent]
      rw [if_pos hnew, if_neg (fun he => by
        have := congrArg List.length (hnew.symm.trans (List.cons.inj he).2)
        simp at this), node_cons_of_none hold]
      exact h.empty _ i
    · rw [if_neg hnew]
      cases hn : node dec ent root p with
      | none =>
        rw [node_cons_of_none hn, if_neg (fun he => by
          rw [(List.cons.inj he).2, h.parent] at hn
          exact Option.some_ne_none _ hn)]
        rfl
      | some f =>
        rw [node_cons_of_some hn, Option.bind_some]
        by_cases hlink : i :: p = i₀ :: p₀
        · obtain ⟨rfl, rfl⟩ := List.cons.inj hlink
          rw [if_pos rfl, Option.some.inj (hn.symm.trans h.parent)]
          exact h.linked
        · rw [if_neg hlink, h.same p f i (by omega) hn]
          rintro rfl rfl
          exact hlink (by rw [h.tree p p₀ f (by omega) (by have := h.short; omega) hn h.parent])

/-- The new table is a node, and the old nodes stay where they were. -/
theorem Link.node_new [DecidableEq I] (h : Link D dec ent ent' root p₀ i₀ f₀ g) :
    node dec ent' root (i₀ :: p₀) = some g := by
  rw [h.node_eq _ (by have := h.short; rw [List.length_cons]; omega), if_pos rfl]

theorem Link.node_of_some [DecidableEq I] (h : Link D dec ent ent' root p₀ i₀ f₀ g) {p : List I}
    {f : F} (hp : p.length ≤ D) (hn : node dec ent root p = some f) :
    node dec ent' root p = some f := by
  rw [h.node_eq p hp, if_neg]
  · exact hn
  · rintro rfl
    rw [node_cons_of_some h.parent, h.absent] at hn
    exact Option.some_ne_none _ hn.symm

theorem Link.isTree [DecidableEq I] (h : Link D dec ent ent' root p₀ i₀ f₀ g) :
    IsTree D dec ent' root := by
  intro p q f hp hq hnp hnq
  rw [h.node_eq p hp] at hnp
  rw [h.node_eq q hq] at hnq
  split at hnp <;> split at hnq
  · simp_all
  · exact absurd (hnq.trans hnp.symm) (h.fresh q hq)
  · exact absurd (hnp.trans hnq.symm) (h.fresh p hp)
  · exact h.tree p q f hp hq hnp hnq

/-- **Linking an empty table changes no walk.**  The entry it is linked at and the
entries it holds are unmarked for a walk that ends there. -/
theorem Link.find_eq [DecidableEq I] (h : Link D dec ent ent' root p₀ i₀ f₀ g) {mark : E → Bool}
    (hold : mark (ent f₀ i₀) = false) (hempty : ∀ i, mark (ent' g i) = false) :
    ∀ p, p.length = D + 1 → find mark dec ent' root p = find mark dec ent root p := by
  -- a shorter walk counts only when it really stops there
  have haux : ∀ p, p.length ≤ D + 1 → (p.length = D + 1 ∨ node dec ent' root p = none) →
      find mark dec ent' root p = find mark dec ent root p := by
    intro p
    induction p with
    | nil => intro _ _; rfl
    | cons i p ih =>
      intro hp hend
      rw [List.length_cons] at hp
      have hnode := h.node_eq p (by omega)
      by_cases hnew : p = i₀ :: p₀
      · have hnone : node dec ent root p = none := by
          rw [hnew, node_cons_of_some h.parent, h.absent]
        rw [if_pos hnew] at hnode
        rw [find, find, look_cons_of_some hnode, look_cons_of_none hnone, hnew,
          look_cons_of_some h.parent]
        simp [Option.filter, hempty i, hold]
      · rw [if_neg hnew] at hnode
        cases hn : node dec ent root p with
        | none =>
          rw [find, find, look_cons_of_none hn, look_cons_of_none (hnode.trans hn)]
          exact ih (by omega) (Or.inr (hnode.trans hn))
        | some f =>
          rw [find, find, look_cons_of_some hn, look_cons_of_some (hnode.trans hn),
            h.same p f i (by omega) hn]
          rintro rfl rfl
          have hp₀ := h.tree p p₀ f (by omega) (by have := h.short; omega) hn h.parent
          subst hp₀
          rcases hend with hend | hend
          · have := h.short
            rw [List.length_cons] at hend
            omega
          · rw [h.node_new] at hend
            exact Option.some_ne_none _ hend
  exact fun p hp => haux p (by omega) (Or.inl hp)

/-! ### An entry at the bottom -/

/-- `ent'` is `ent` with the entry `i₁` of the table `f₁` rewritten, where `f₁` is the
node of the path `p₁` at depth `D`. -/
structure Leaf (D : Nat) (dec : Nat → E → Option F) (ent ent' : F → I → E) (root : F)
    (p₁ : List I) (i₁ : I) (f₁ : F) : Prop where
  parent : node dec ent root p₁ = some f₁
  deep : p₁.length = D
  same : ∀ p f i, p.length ≤ D → node dec ent root p = some f → (f = f₁ → i ≠ i₁) →
    ent' f i = ent f i
  tree : IsTree D dec ent root

variable {p₁ : List I} {i₁ : I} {f₁ : F}

theorem Leaf.node_eq (h : Leaf D dec ent ent' root p₁ i₁ f₁) :
    ∀ p, p.length ≤ D → node dec ent' root p = node dec ent root p := by
  refine node_congr (fun p f hp hn i => h.same p f i (by omega) hn ?_)
  rintro rfl
  have := h.tree p p₁ f (by omega) (Nat.le_of_eq h.deep) hn h.parent
  rw [this, h.deep] at hp
  exact absurd hp (Nat.lt_irrefl D)

theorem Leaf.isTree (h : Leaf D dec ent ent' root p₁ i₁ f₁) : IsTree D dec ent' root := by
  intro p q f hp hq hnp hnq
  rw [h.node_eq p hp] at hnp
  rw [h.node_eq q hq] at hnq
  exact h.tree p q f hp hq hnp hnq

/-- **Rewriting a bottom entry changes the one walk that ends there.** -/
theorem Leaf.look_eq [DecidableEq I] (h : Leaf D dec ent ent' root p₁ i₁ f₁) :
    ∀ p, p.length ≤ D + 1 → look dec ent' root p =
      if p = i₁ :: p₁ then some (D, ent' f₁ i₁) else look dec ent root p := by
  intro p
  induction p with
  | nil => intro _; rfl
  | cons i p ih =>
    intro hp
    rw [List.length_cons] at hp
    have hnode := h.node_eq p (by omega)
    cases hn : node dec ent root p with
    | none =>
      rw [look_cons_of_none hn, look_cons_of_none (hnode.trans hn), ih (by omega)]
      have hshort : p ≠ i₁ :: p₁ := by
        rintro rfl
        rw [List.length_cons, h.deep] at hp
        omega
      have hother : i :: p ≠ i₁ :: p₁ := by
        intro he
        rw [(List.cons.inj he).2, h.parent] at hn
        exact Option.some_ne_none _ hn
      rw [if_neg hshort, if_neg hother]
    | some f =>
      rw [look_cons_of_some hn, look_cons_of_some (hnode.trans hn)]
      by_cases hleaf : i :: p = i₁ :: p₁
      · obtain ⟨rfl, rfl⟩ := List.cons.inj hleaf
        rw [if_pos rfl, h.deep, Option.some.inj (hn.symm.trans h.parent)]
      · rw [if_neg hleaf, h.same p f i (by omega) hn]
        rintro rfl rfl
        exact hleaf (by rw [h.tree p p₁ f (by omega) (Nat.le_of_eq h.deep) hn h.parent])

theorem Leaf.find_eq [DecidableEq I] (h : Leaf D dec ent ent' root p₁ i₁ f₁) {mark : E → Bool} :
    ∀ p, p.length ≤ D + 1 → find mark dec ent' root p =
      if p = i₁ :: p₁ then (if mark (ent' f₁ i₁) then some (D, ent' f₁ i₁) else none)
      else find mark dec ent root p := by
  intro p hp
  rw [find, h.look_eq p hp]
  split
  · rfl
  · rfl

end Radix
