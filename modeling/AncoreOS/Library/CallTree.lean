import Mathlib.Data.Fintype.Card
import Mathlib.Data.List.Count
import Mathlib.Logic.Relation
import Mathlib.Tactic

/-!
# Recursive procedures and the trees of their calls

A procedure with one parameter that leaves a trace and calls itself is a `script`: for each
argument the list of what it emits and of the arguments it calls itself with.  `run` carries
it out up to a depth and is `none` when the depth does not suffice.

A run ends for some depth exactly when no argument that is called, directly or not, calls
itself in turn (`exists_within_iff_no_cycle`).  What a run emits is read off the arguments
in the order they are called, `preorder` (`run_count`), and when no argument is called from
two places each of them stands there once (`preorder_count`).
-/

namespace CallTree

open Relation

/-- One thing that a procedure does. -/
inductive Item (ε V : Type*)
  | emit (e : ε)
  | call (v : V)

variable {ε V : Type*}

/-- The trace of a list of items, when `f` gives those of the calls. -/
def exec (f : V → Option (List ε)) : List (Item ε V) → Option (List ε)
  | [] => some []
  | .emit e :: is => (exec f is).map (e :: ·)
  | .call v :: is => (f v).bind fun l => (exec f is).map (l ++ ·)

def run (script : V → List (Item ε V)) : Nat → V → Option (List ε)
  | 0, _ => none
  | n + 1, v => exec (run script n) (script v)

def Item.called : Item ε V → Option V
  | .emit _ => none
  | .call v => some v

def Item.emitted : Item ε V → Option ε
  | .emit e => some e
  | .call _ => none

def callees (is : List (Item ε V)) : List V := is.filterMap Item.called

def emits (is : List (Item ε V)) : List ε := is.filterMap Item.emitted

@[simp]
theorem mem_callees {is : List (Item ε V)} {v : V} : v ∈ callees is ↔ .call v ∈ is := by
  unfold callees
  rw [List.mem_filterMap]
  constructor
  · rintro ⟨i, hi, hv⟩
    cases i with
    | emit e => exact absurd hv (Option.some_ne_none v).symm
    | call w =>
      cases hv
      exact hi
  · exact fun h => ⟨_, h, rfl⟩

@[simp]
theorem callees_emits (es : List ε) : callees (es.map Item.emit : List (Item ε V)) = [] := by
  induction es with
  | nil => rfl
  | cons e es ih => exact ih

@[simp]
theorem emits_emits (es : List ε) : emits (es.map Item.emit : List (Item ε V)) = es := by
  induction es with
  | nil => rfl
  | cons e es ih => exact congrArg (e :: ·) ih

theorem callees_flatMap {β : Type*} (g : β → List (Item ε V)) (xs : List β) :
    callees (xs.flatMap g) = xs.flatMap fun x => callees (g x) :=
  List.filterMap_flatMap

theorem emits_flatMap {β : Type*} (g : β → List (Item ε V)) (xs : List β) :
    emits (xs.flatMap g) = xs.flatMap fun x => emits (g x) :=
  List.filterMap_flatMap

/-- Calling is possible from `v` with `n` nested calls. -/
def Within (next : V → List V) : Nat → V → Prop
  | 0, _ => False
  | n + 1, v => ∀ w ∈ next v, Within next n w

/-- The arguments in the order of the calls. -/
def preorder (next : V → List V) : Nat → V → List V
  | 0, _ => []
  | n + 1, v => v :: (next v).flatMap (preorder next n)

section Exec

variable (f : V → Option (List ε))

theorem exec_isSome (is : List (Item ε V)) :
    (exec f is).isSome ↔ ∀ v ∈ callees is, (f v).isSome := by
  induction is with
  | nil => simp [exec]
  | cons i is ih =>
    cases i with
    | emit e =>
      rw [exec, Option.isSome_map, ih]
      simp
    | call v =>
      rw [exec]
      cases hv : f v with
      | none => simp [hv]
      | some l =>
        rw [Option.bind_some, Option.isSome_map, ih]
        simp [hv]

theorem exec_count [BEq ε] (e : ε) : ∀ (is : List (Item ε V)) (l : List ε), exec f is = some l →
    l.count e = (emits is).count e + ((callees is).map fun v => ((f v).getD []).count e).sum := by
  intro is
  induction is with
  | nil =>
    rintro l ⟨⟩
    rfl
  | cons i is ih =>
    intro l h
    cases i with
    | emit a =>
      obtain ⟨l', h', rfl⟩ := Option.map_eq_some_iff.mp h
      have hrest := ih l' h'
      simp only [emits, callees, List.filterMap_cons, Item.emitted, Item.called, List.count_cons]
      simp only [emits, callees] at hrest
      omega
    | call v =>
      obtain ⟨l₁, h₁, h⟩ := Option.bind_eq_some_iff.mp h
      obtain ⟨l₂, h₂, rfl⟩ := Option.map_eq_some_iff.mp h
      have hrest := ih l₂ h₂
      simp only [emits, callees, List.filterMap_cons, Item.emitted, Item.called, List.map_cons,
        List.sum_cons, List.count_append, h₁, Option.getD_some]
      simp only [emits, callees] at hrest
      omega

end Exec

section Run

variable {script : V → List (Item ε V)}

theorem run_isSome (n : Nat) (v : V) :
    (run script n v).isSome ↔ Within (fun v => callees (script v)) n v := by
  induction n generalizing v with
  | zero => exact iff_of_false Bool.false_ne_true id
  | succ n ih =>
    rw [run, exec_isSome]
    exact forall₂_congr fun w _ => ih w

/-- What is emitted, over all the calls. -/
theorem run_count [BEq ε] (e : ε) : ∀ (n : Nat) (v : V) (l : List ε), run script n v = some l →
    l.count e =
      ((preorder (fun v => callees (script v)) n v).map fun w => (emits (script w)).count e).sum := by
  intro n
  induction n with
  | zero => exact fun v l h => absurd h (Option.some_ne_none l).symm
  | succ n ih =>
    intro v l h
    rw [run] at h
    have hsome := (exec_isSome _ _).mp (Option.isSome_of_eq_some h)
    rw [exec_count _ e _ l h, preorder, List.map_cons, List.sum_cons, List.map_flatMap,
      List.flatMap_def, List.sum_flatten, List.map_map]
    congr 2
    refine List.map_congr_left fun w hw => ?_
    obtain ⟨lw, hlw⟩ := Option.isSome_iff_exists.mp (hsome w hw)
    rw [hlw, Option.getD_some, ih w lw hlw]
    rfl

end Run

/-! ### Depth -/

section Depth

variable {next : V → List V}

/-- `w` is called by `v`. -/
def Calls (next : V → List V) (v w : V) : Prop := w ∈ next v

theorem Within.mono {n m : Nat} (hnm : n ≤ m) {v : V} (h : Within next n v) : Within next m v := by
  induction n generalizing m v with
  | zero => exact h.elim
  | succ n ih =>
    cases m with
    | zero => exact absurd hnm (Nat.not_succ_le_zero n)
    | succ m => exact fun w hw => ih (Nat.le_of_succ_le_succ hnm) (h w hw)

/-- Finitely many calls need no more depth than the deepest of them. -/
theorem exists_within_all : ∀ (vs : List V), (∀ v ∈ vs, ∃ n, Within next n v) →
    ∃ n, ∀ v ∈ vs, Within next n v := by
  intro vs
  induction vs with
  | nil => exact fun _ => ⟨0, fun v hv => absurd hv List.not_mem_nil⟩
  | cons v vs ih =>
    intro h
    obtain ⟨n, hn⟩ := h v List.mem_cons_self
    obtain ⟨m, hm⟩ := ih fun w hw => h w (List.mem_cons_of_mem v hw)
    refine ⟨max n m, fun w hw => ?_⟩
    rcases List.mem_cons.mp hw with rfl | hw
    · exact hn.mono (le_max_left n m)
    · exact (hm w hw).mono (le_max_right n m)

theorem Within.acc {n : Nat} {v : V} (h : Within next n v) :
    Acc (Function.swap (Calls next)) v := by
  induction n generalizing v with
  | zero => exact h.elim
  | succ n ih => exact ⟨v, fun w hw => ih (h w hw)⟩

theorem exists_within_iff_acc {v : V} :
    (∃ n, Within next n v) ↔ Acc (Function.swap (Calls next)) v := by
  constructor
  · rintro ⟨n, h⟩
    exact h.acc
  · intro h
    induction h with
    | intro v _ ih =>
      obtain ⟨n, hn⟩ := exists_within_all (next v) ih
      exact ⟨n + 1, hn⟩

theorem no_cycle_of_acc {v : V} (h : Acc (Function.swap (Calls next)) v) :
    ¬TransGen (Calls next) v v := by
  have htrans := h.transGen
  clear h
  induction htrans with
  | intro v _ ih =>
    intro hv
    exact ih v (transGen_swap.mpr hv) hv

/-- **A recursion has a bounded depth** exactly when no call leads back to itself. -/
theorem exists_within_iff_no_cycle [Finite V] {v : V} :
    (∃ n, Within next n v) ↔
      ∀ w, ReflTransGen (Calls next) v w → ¬TransGen (Calls next) w w := by
  rw [exists_within_iff_acc]
  constructor
  · intro h w hw
    refine no_cycle_of_acc ?_
    induction hw with
    | refl => exact h
    | tail _ hc ih => exact ih.inv hc
  · intro h
    -- Below `v` being called is transitive and irreflexive once closed, so it is well-founded.
    let below (w u : { w // ReflTransGen (Calls next) v w }) : Prop :=
      TransGen (Calls next) u.1 w.1
    have htrans : IsTrans _ below := ⟨fun _ _ _ hab hbc => hbc.trans hab⟩
    have hirrefl : Std.Irrefl below := ⟨fun w => h w.1 w.2⟩
    have hwf : WellFounded below := Finite.wellFounded_of_trans_of_irrefl below
    have hacc : ∀ w : { w // ReflTransGen (Calls next) v w }, Acc below w →
        Acc (Function.swap (Calls next)) w.1 := by
      intro w hw
      induction hw with
      | intro w _ ih => exact ⟨w.1, fun u hu => ih ⟨u, w.2.tail hu⟩ (.single hu)⟩
    exact hacc ⟨v, .refl⟩ (hwf.apply _)

end Depth

/-! ### Trees -/

section Tree

variable {next : V → List V}

/-- No argument is called from two places. -/
structure Forest (next : V → List V) : Prop where
  nodup : ∀ v, (next v).Nodup
  unique : ∀ v v' w, w ∈ next v → w ∈ next v' → v = v'

/-- Two arguments that lead to a third are on one path. -/
theorem Forest.comparable (hf : Forest next) {u v w : V} (h : ReflTransGen (Calls next) v w)
    (h' : ReflTransGen (Calls next) u w) :
    ReflTransGen (Calls next) v u ∨ ReflTransGen (Calls next) u v := by
  have hunique : Relator.RightUnique (Function.swap (Calls next)) :=
    fun w v v' hv hv' => hf.unique v v' w hv hv'
  rcases ReflTransGen.total_of_right_unique hunique (reflTransGen_swap.mpr h)
    (reflTransGen_swap.mpr h') with hback | hback
  · exact Or.inr (reflTransGen_swap.mp hback)
  · exact Or.inl (reflTransGen_swap.mp hback)

/-- Of the callees of one argument at most one leads to `w`. -/
theorem Forest.callee_unique (hf : Forest next) {v c c' w : V}
    (hacc : ¬TransGen (Calls next) v v) (hc : c ∈ next v) (hc' : c' ∈ next v)
    (h : ReflTransGen (Calls next) c w) (h' : ReflTransGen (Calls next) c' w) : c = c' := by
  have hback : ∀ {a b : V}, a ∈ next v → b ∈ next v → ReflTransGen (Calls next) a b → a = b := by
    intro a b ha hb hab
    rcases hab.cases_tail with rfl | ⟨u, hau, hub⟩
    · rfl
    · rw [hf.unique u v b hub hb] at hau
      exact absurd (TransGen.head' ha hau) hacc
  rcases hf.comparable h h' with hcc | hcc
  · exact hback hc hc' hcc
  · exact (hback hc' hc hcc).symm

theorem count_flatMap_of_none {β : Type*} [BEq β] {g : V → List β} {b : β} {vs : List V}
    (h : ∀ v ∈ vs, (g v).count b = 0) : (vs.flatMap g).count b = 0 := by
  induction vs with
  | nil => rfl
  | cons v vs ih =>
    rw [List.flatMap_cons, List.count_append, h v List.mem_cons_self,
      ih fun w hw => h w (List.mem_cons_of_mem v hw)]

theorem count_flatMap_of_one {β : Type*} [BEq β] {g : V → List β} {b : β} {v : V} {vs : List V}
    (hnodup : vs.Nodup) (hv : v ∈ vs) (h : ∀ w ∈ vs, w ≠ v → (g w).count b = 0) :
    (vs.flatMap g).count b = (g v).count b := by
  induction vs with
  | nil => exact absurd hv List.not_mem_nil
  | cons u vs ih =>
    obtain ⟨hu, hnodup⟩ := List.nodup_cons.mp hnodup
    rw [List.flatMap_cons, List.count_append]
    rcases List.mem_cons.mp hv with rfl | hv
    · rw [count_flatMap_of_none, Nat.add_zero]
      intro w hw
      exact h w (List.mem_cons_of_mem _ hw) (fun he => hu (he ▸ hw))
    · have hne : u ≠ v := fun he => hu (he ▸ hv)
      rw [h u List.mem_cons_self hne, Nat.zero_add,
        ih hnodup hv fun w hw => h w (List.mem_cons_of_mem u hw)]

theorem mem_preorder {n : Nat} {v w : V} (h : w ∈ preorder next n v) :
    ReflTransGen (Calls next) v w := by
  induction n generalizing v with
  | zero => exact absurd h List.not_mem_nil
  | succ n ih =>
    rcases List.mem_cons.mp h with rfl | h
    · exact .refl
    · obtain ⟨c, hc, hw⟩ := List.mem_flatMap.mp h
      exact .head hc (ih hw)

/-- **In a forest every argument that is reached is called once.** -/
theorem preorder_count [DecidableEq V] (hf : Forest next) {n : Nat} {v w : V} (h : Within next n v) :
    (ReflTransGen (Calls next) v w → (preorder next n v).count w = 1) ∧
      (¬ReflTransGen (Calls next) v w → (preorder next n v).count w = 0) := by
  refine ⟨?_, fun hnot => List.count_eq_zero.mpr fun hw => hnot (mem_preorder hw)⟩
  induction n generalizing v with
  | zero => exact h.elim
  | succ n ih =>
    intro hvw
    have hacc := no_cycle_of_acc h.acc
    have hzero : ∀ c ∈ next v, ¬ReflTransGen (Calls next) c w → (preorder next n c).count w = 0 :=
      fun c _ hnot => List.count_eq_zero.mpr fun hw => hnot (mem_preorder hw)
    rw [preorder]
    rcases hvw.cases_head with rfl | ⟨c, hc, hcw⟩
    · rw [List.count_cons_self, count_flatMap_of_none]
      intro c hc
      exact hzero c hc fun hback => hacc (TransGen.head' hc hback)
    · have hne : v ≠ w := by
        rintro rfl
        exact hacc (TransGen.head' hc hcw)
      rw [List.count_cons_of_ne hne, count_flatMap_of_one (hf.nodup v) hc, ih (h c hc) hcw]
      intro c' hc' hne'
      exact hzero c' hc' fun hcw' => hne' (hf.callee_unique hacc hc' hc hcw' hcw)

end Tree

end CallTree
