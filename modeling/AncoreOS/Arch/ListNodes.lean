import AncoreOS.Library.Rings
import Mathlib.Data.Set.Insert

/-!
# The circular lists of `io.h`

A `list_t` is two pointers, and a node is the address of one.  `ListLinks` is the
memory of all nodes; each operation is the sequence of pointer writes of the
source.

What the lists are for is a set of sequences: `Sequences.insert` puts a node just
before another one and `Sequences.remove` takes one out.  `WellFormed` relates
the two: every sequence is a ring in the memory, and no node is in two of them.
The operations keep it as long as a node is initialised before it is used, is
alone when it is inserted, and is not initialised again while it is linked with
others.
-/

namespace AncoreOS.Arch

open Rings

/-- The two pointers of every node. -/
structure ListLinks (α : Type*) where
  next : α → α
  prev : α → α

variable {α : Type*} [DecidableEq α]

namespace ListLinks

def setNext (h : ListLinks α) (n v : α) : ListLinks α :=
  { h with next := Function.update h.next n v }

def setPrev (h : ListLinks α) (n v : α) : ListLinks α :=
  { h with prev := Function.update h.prev n v }

end ListLinks

def listInit (h : ListLinks α) (list : α) : ListLinks α :=
  let h := h.setNext list list
  h.setPrev list list

/-- `none` is `NULL`. -/
def listLast (h : ListLinks α) (list : α) : Option α :=
  if h.prev list ≠ list then some (h.prev list) else none

def listNext (h : ListLinks α) (list : α) : Option α :=
  if h.next list ≠ list then some (h.next list) else none

def listInsert (h : ListLinks α) (new link : α) : ListLinks α :=
  let h := h.setPrev new (h.prev link)
  let h := h.setNext new link
  let h := h.setNext (h.prev new) new
  h.setPrev (h.next new) new

def listAppend (h : ListLinks α) (new into : α) : ListLinks α := listInsert h new into

def listRemove (h : ListLinks α) (list : α) : ListLinks α :=
  let h := h.setNext (h.prev list) (h.next list)
  let h := h.setPrev (h.next list) (h.prev list)
  let h := h.setNext list list
  h.setPrev list list

/-! ### The writes of one call -/

theorem listInit_next_of_ne (h : ListLinks α) {n x : α} (hx : x ≠ n) :
    (listInit h n).next x = h.next x := Function.update_of_ne hx _ _

theorem listInit_prev_of_ne (h : ListLinks α) {n x : α} (hx : x ≠ n) :
    (listInit h n).prev x = h.prev x := Function.update_of_ne hx _ _

theorem listInit_self (h : ListLinks α) (n : α) :
    (listInit h n).next n = n ∧ (listInit h n).prev n = n :=
  ⟨Function.update_self _ _ _, Function.update_self _ _ _⟩

/-- An insertion changes `next` of the new node and of the one before `link`. -/
theorem listInsert_next (h : ListLinks α) (new link : α) :
    (listInsert h new link).next =
      Function.update (Function.update h.next new link) (h.prev link) new := by
  have hprev : (Function.update h.prev new (h.prev link)) new = h.prev link :=
    Function.update_self _ _ _
  simp only [listInsert, ListLinks.setNext, ListLinks.setPrev, hprev]

/-- And `prev` of the new node and of `link`. -/
theorem listInsert_prev (h : ListLinks α) {new link : α} (hp : h.prev link ≠ new) :
    (listInsert h new link).prev =
      Function.update (Function.update h.prev new (h.prev link)) link new := by
  have hprev : (Function.update h.prev new (h.prev link)) new = h.prev link :=
    Function.update_self _ _ _
  have hnext : (Function.update (Function.update h.next new link) (h.prev link) new) new = link := by
    rw [Function.update_of_ne hp.symm, Function.update_self]
  simp only [listInsert, ListLinks.setNext, ListLinks.setPrev, hprev, hnext]

/-- A node that is alone may be inserted before itself. -/
theorem listInsert_self (h : ListLinks α) {n : α} (hn : h.next n = n) (hp : h.prev n = n) :
    listInsert h n n = h := by
  have hprev : Function.update h.prev n n = h.prev := by
    rw [Function.update_eq_self_iff]
    exact hp.symm
  have hnext : Function.update h.next n n = h.next := by
    rw [Function.update_eq_self_iff]
    exact hn.symm
  simp only [listInsert, ListLinks.setNext, ListLinks.setPrev, hp, hprev, hnext, hn]

theorem listRemove_next (h : ListLinks α) (n : α) :
    (listRemove h n).next = Function.update (Function.update h.next (h.prev n) (h.next n)) n n :=
  rfl

/-- The second write reads `next` of the removed node after the first one may have written it,
and still finds the old value. -/
theorem listRemove_prev (h : ListLinks α) (n : α) :
    (listRemove h n).prev = Function.update (Function.update h.prev (h.next n) (h.prev n)) n n := by
  have hnext : (Function.update h.next (h.prev n) (h.next n)) n = h.next n := by
    by_cases hp : n = h.prev n
    · rw [← hp, Function.update_self]
    · rw [Function.update_of_ne hp]
  simp only [listRemove, ListLinks.setNext, ListLinks.setPrev, hnext]

/-! ### The sequences the lists stand for -/

/-- `new` just before `link`. -/
def insertBefore (new link : α) : List α → List α
  | [] => []
  | x :: l => if x = link then new :: x :: l else x :: insertBefore new link l

namespace Sequences

/-- Every initialised node is in one sequence; a node alone is a sequence of its own. -/
def init (S : Set (List α)) (list : α) : Set (List α) := insert [list] S

/-- The inserted node leaves its own sequence for that of `link`. -/
def insertNode (S : Set (List α)) (new link : α) : Set (List α) :=
  if new = link then S else {l | ∃ m ∈ S, m ≠ [new] ∧ insertBefore new link m = l}

/-- The removed node is alone afterwards. -/
def remove (S : Set (List α)) (list : α) : Set (List α) :=
  insert [list] {l | l ≠ [] ∧ ∃ m ∈ S, m.erase list = l}

/-- The node is in one of the sequences. -/
def Has (S : Set (List α)) (x : α) : Prop := ∃ l ∈ S, x ∈ l

end Sequences

theorem insertBefore_of_notMem {new link : α} {l : List α} (h : link ∉ l) :
    insertBefore new link l = l := by
  induction l with
  | nil => rfl
  | cons x l ih =>
    rw [List.mem_cons, not_or] at h
    rw [insertBefore, if_neg (Ne.symm h.1), ih h.2]

theorem insertBefore_of_mem (new : α) {link : α} {l : List α} (h : link ∈ l) :
    ∃ s t, l = s ++ link :: t ∧ insertBefore new link l = s ++ new :: link :: t := by
  induction l with
  | nil => exact absurd h List.not_mem_nil
  | cons x l ih =>
    by_cases hx : x = link
    · subst hx
      exact ⟨[], l, rfl, by rw [insertBefore, if_pos rfl]; rfl⟩
    · obtain ⟨s, t, hl, hins⟩ := ih ((List.mem_cons.mp h).resolve_left (Ne.symm hx))
      refine ⟨x :: s, t, by rw [hl]; rfl, ?_⟩
      rw [insertBefore, if_neg hx, hins]
      rfl

theorem mem_insertBefore {new link x : α} {l : List α} :
    x ∈ insertBefore new link l ↔ x ∈ l ∨ x = new ∧ link ∈ l := by
  by_cases h : link ∈ l
  · obtain ⟨s, t, hl, hins⟩ := insertBefore_of_mem new h
    rw [hins, hl]
    simp only [List.mem_append, List.mem_cons]
    tauto
  · rw [insertBefore_of_notMem h]
    exact ⟨Or.inl, fun hx => hx.resolve_right fun hx => h hx.2⟩

theorem insertBefore_nodup {new link : α} {l : List α} (hn : l.Nodup) (hnew : new ∉ l) :
    (insertBefore new link l).Nodup := by
  by_cases h : link ∈ l
  · obtain ⟨s, t, hl, hins⟩ := insertBefore_of_mem new h
    rw [hins, List.nodup_middle, List.nodup_cons, ← hl]
    exact ⟨hnew, hn⟩
  · rw [insertBefore_of_notMem h]
    exact hn

/-! ### Every sequence is a ring -/

structure WellFormed (h : ListLinks α) (S : Set (List α)) : Prop where
  nonempty : ∀ l ∈ S, l ≠ []
  nodup : ∀ l ∈ S, l.Nodup
  apart : ∀ l ∈ S, ∀ m ∈ S, ∀ x, x ∈ l → x ∈ m → l = m
  ring : ∀ l ∈ S, Ring h.next h.prev l

namespace WellFormed

variable {h : ListLinks α} {S : Set (List α)}

omit [DecidableEq α] in
theorem empty (h : ListLinks α) : WellFormed h ∅ where
  nonempty := fun _ hl => absurd hl (Set.notMem_empty _)
  nodup := fun _ hl => absurd hl (Set.notMem_empty _)
  apart := fun _ hl => absurd hl (Set.notMem_empty _)
  ring := fun _ hl => absurd hl (Set.notMem_empty _)

/-- The neighbours of a node are in its sequence. -/
theorem neighbours_mem (hw : WellFormed h S) {l : List α} {x : α} (hl : l ∈ S) (hx : x ∈ l) :
    h.next x ∈ l ∧ h.prev x ∈ l := by
  obtain ⟨⟨hnext, hprev⟩, -⟩ := (hw.ring l hl).neighbours (hw.nodup l hl) hx
  rw [hnext, hprev]
  exact ⟨l.next_mem x hx, l.prev_mem x hx⟩

omit [DecidableEq α] in
/-- A node that is alone points at itself. -/
theorem alone (hw : WellFormed h S) {x : α} (hx : [x] ∈ S) : h.next x = x ∧ h.prev x = x :=
  ring_singleton.mp (hw.ring [x] hx)

omit [DecidableEq α] in
/-- Adding a ring of one node that no other sequence has. -/
theorem insert_alone {n : α} (hw : WellFormed h S) (hn : ∀ l ∈ S, n ∈ l → l = [n])
    (hself : h.next n = n ∧ h.prev n = n) : WellFormed h (insert [n] S) where
  nonempty := by
    rintro l (rfl | hl)
    · exact List.cons_ne_nil _ _
    · exact hw.nonempty l hl
  nodup := by
    rintro l (rfl | hl)
    · exact List.nodup_singleton n
    · exact hw.nodup l hl
  apart := by
    rintro l (rfl | hl) m (rfl | hm) x hxl hxm
    · rfl
    · rw [List.mem_singleton] at hxl
      subst hxl
      exact (hn m hm hxm).symm
    · rw [List.mem_singleton] at hxm
      subst hxm
      exact hn l hl hxl
    · exact hw.apart l hl m hm x hxl hxm
  ring := by
    rintro l (rfl | hl)
    · exact ring_singleton.mpr hself
    · exact hw.ring l hl

theorem init {n : α} (hw : WellFormed h S) (hn : ∀ l ∈ S, n ∈ l → l = [n]) :
    WellFormed (listInit h n) (Sequences.init S n) := by
  refine insert_alone ⟨hw.nonempty, hw.nodup, hw.apart, fun l hl => ?_⟩ hn (listInit_self h n)
  by_cases hmem : n ∈ l
  · rw [hn l hl hmem]
    exact ring_singleton.mpr (listInit_self h n)
  · refine (hw.ring l hl).congr (fun x hx => ?_) fun x hx => ?_
    · exact listInit_next_of_ne h (ne_of_mem_of_not_mem hx hmem)
    · exact listInit_prev_of_ne h (ne_of_mem_of_not_mem hx hmem)

/-- The new node joins the ring of `link`. -/
theorem ring_insert {new link : α} {m : List α} (hw : WellFormed h S) (hnew : [new] ∈ S)
    (hm : m ∈ S) (hlink : link ∈ m) (hne : new ≠ link) :
    Ring (listInsert h new link).next (listInsert h new link).prev (insertBefore new link m) := by
  have hfresh : new ∉ m := by
    intro hmem
    have heq := hw.apart [new] hnew m hm new List.mem_cons_self hmem
    rw [← heq, List.mem_singleton] at hlink
    exact hne hlink.symm
  have hp : h.prev link ≠ new :=
    ne_of_mem_of_not_mem (hw.neighbours_mem hm hlink).2 hfresh
  obtain ⟨s, t, hsplit, hins⟩ := insertBefore_of_mem new hlink
  have hrot : m ~r link :: (t ++ s) := by
    rw [hsplit]
    exact List.isRotated_append
  have hback : link :: (t ++ s) ++ [new] ~r insertBefore new link m := by
    have hlist : link :: (t ++ s) ++ [new] = (link :: t) ++ (s ++ [new]) := by simp
    have hlist' : insertBefore new link m = (s ++ [new]) ++ (link :: t) := by rw [hins]; simp
    rw [hlist, hlist']
    exact List.isRotated_append
  have hnodup := hrot.nodup_iff.mp (hw.nodup m hm)
  have hfresh' : new ∉ link :: (t ++ s) := fun hmem => hfresh (hrot.mem_iff.mpr hmem)
  refine Ring.rotate ?_ hback
  rw [listInsert_next, listInsert_prev h hp]
  refine ((hw.ring m hm).rotate hrot).insert hnodup hfresh' ?_ ?_ ?_ ?_ (fun x hx hxp => ?_)
    fun x hx hxl => ?_
  · rw [Function.update_of_ne hp.symm, Function.update_self]
  · rw [Function.update_of_ne hne, Function.update_self]
  · exact Function.update_self _ _ _
  · exact Function.update_self _ _ _
  · rw [Function.update_of_ne hxp, Function.update_of_ne hx]
  · rw [Function.update_of_ne hxl, Function.update_of_ne hx]

/-- The rings that have neither node are left alone. -/
theorem ring_insert_other {new link : α} {l m : List α} (hw : WellFormed h S) (hm : m ∈ S)
    (hlink : link ∈ m) (hp : h.prev link ≠ new) (hl : l ∈ S) (hnew : new ∉ l) (hout : link ∉ l) :
    Ring (listInsert h new link).next (listInsert h new link).prev l := by
  have hplink : h.prev link ∉ l := by
    intro hmem
    have heq := hw.apart m hm l hl _ (hw.neighbours_mem hm hlink).2 hmem
    exact hout (heq ▸ hlink)
  rw [listInsert_next, listInsert_prev h hp]
  refine (hw.ring l hl).congr (fun x hx => ?_) fun x hx => ?_
  · rw [Function.update_of_ne (ne_of_mem_of_not_mem hx hplink),
      Function.update_of_ne (ne_of_mem_of_not_mem hx hnew)]
  · rw [Function.update_of_ne (ne_of_mem_of_not_mem hx hout),
      Function.update_of_ne (ne_of_mem_of_not_mem hx hnew)]

theorem insert {new link : α} (hw : WellFormed h S) (hnew : [new] ∈ S)
    (hlink : Sequences.Has S link) :
    WellFormed (listInsert h new link) (Sequences.insertNode S new link) := by
  unfold Sequences.insertNode
  split
  · next heq =>
    subst heq
    obtain ⟨hn, hp⟩ := hw.alone hnew
    rw [listInsert_self h hn hp]
    exact hw
  next hne =>
  obtain ⟨m, hm, hmem⟩ := hlink
  -- the new node is in no sequence but its own
  have hfresh : ∀ l ∈ S, l ≠ [new] → new ∉ l := fun l hl hln hin =>
    hln (hw.apart [new] hnew l hl new List.mem_cons_self hin).symm
  have hmnew : m ≠ [new] := by
    rintro rfl
    exact hne (List.mem_singleton.mp hmem).symm
  have hp : h.prev link ≠ new :=
    ne_of_mem_of_not_mem (hw.neighbours_mem hm hmem).2 (hfresh m hm hmnew)
  refine ⟨?_, ?_, ?_, ?_⟩
  · rintro l ⟨k, hk, -, rfl⟩
    obtain ⟨x, hx⟩ := List.exists_mem_of_ne_nil k (hw.nonempty k hk)
    exact List.ne_nil_of_mem (mem_insertBefore.mpr (Or.inl hx))
  · rintro l ⟨k, hk, hkn, rfl⟩
    exact insertBefore_nodup (hw.nodup k hk) (hfresh k hk hkn)
  · rintro l ⟨k, hk, hkn, rfl⟩ l' ⟨k', hk', hkn', rfl⟩ x hx hx'
    have heq : k = k' := by
      rcases mem_insertBefore.mp hx with hin | ⟨rfl, hin⟩
      · rcases mem_insertBefore.mp hx' with hin' | ⟨rfl, -⟩
        · exact hw.apart k hk k' hk' x hin hin'
        · exact absurd hin (hfresh k hk hkn)
      · rcases mem_insertBefore.mp hx' with hin' | ⟨-, hin'⟩
        · exact absurd hin' (hfresh k' hk' hkn')
        · exact hw.apart k hk k' hk' link hin hin'
    rw [heq]
  · rintro l ⟨k, hk, hkn, rfl⟩
    by_cases hin : link ∈ k
    · exact hw.ring_insert hnew hk hin hne
    · rw [insertBefore_of_notMem hin]
      exact hw.ring_insert_other hm hmem hp hk (hfresh k hk hkn) hin

/-- What a removal leaves of the ring of the node. -/
theorem ring_erase {n : α} {l : List α} (hw : WellFormed h S) (hl : l ∈ S) (hnl : n ∈ l)
    (hne : l.erase n ≠ []) :
    Ring (listRemove h n).next (listRemove h n).prev (l.erase n) := by
  obtain ⟨s, t, -, hsplit, herase⟩ := List.exists_erase_eq hnl
  have hrot : l ~r n :: (t ++ s) := by
    rw [hsplit]
    exact List.isRotated_append
  have hback : t ++ s ~r l.erase n := by
    rw [herase]
    exact List.isRotated_append
  obtain ⟨b, k, hbk⟩ : ∃ b k, t ++ s = b :: k := by
    refine List.exists_cons_of_ne_nil fun hnil => hne ?_
    rw [hnil] at hback
    exact List.isRotated_nil_iff'.mp hback |>.symm
  rw [hbk] at hrot hback
  have hring := (hw.ring l hl).rotate hrot
  have hnodup := hrot.nodup_iff.mp (hw.nodup l hl)
  -- neither neighbour is the node itself, which is not alone
  have hln : l ≠ [n] := by
    rintro rfl
    exact hne (by simp)
  obtain ⟨hnext, hprev⟩ := (hw.ring l hl).eq_singleton_iff (hw.nodup l hl) hnl
  have hnn : h.next n ≠ n := fun he => hln (hnext.mp he)
  have hpn : h.prev n ≠ n := fun he => hln (hprev.mp he)
  rw [listRemove_next, listRemove_prev]
  refine Ring.rotate (hring.remove hnodup ?_ ?_ (fun x hx hxp => ?_) fun x hx hxn => ?_) hback
  · rw [Function.update_of_ne hpn, Function.update_self]
  · rw [Function.update_of_ne hnn, Function.update_self]
  · rw [Function.update_of_ne hx, Function.update_of_ne hxp]
  · rw [Function.update_of_ne hx, Function.update_of_ne hxn]

/-- The rings without the node are left alone. -/
theorem ring_remove_other {n : α} {l m : List α} (hw : WellFormed h S) (hm : m ∈ S) (hnm : n ∈ m)
    (hl : l ∈ S) (hnl : n ∉ l) : Ring (listRemove h n).next (listRemove h n).prev l := by
  obtain ⟨hnext, hprev⟩ := hw.neighbours_mem hm hnm
  have hout : ∀ y ∈ m, y ∉ l := by
    intro y hy hmem
    have heq := hw.apart m hm l hl y hy hmem
    exact hnl (heq ▸ hnm)
  rw [listRemove_next, listRemove_prev]
  refine (hw.ring l hl).congr (fun x hx => ?_) fun x hx => ?_
  · rw [Function.update_of_ne (ne_of_mem_of_not_mem hx hnl),
      Function.update_of_ne (ne_of_mem_of_not_mem hx (hout _ hprev))]
  · rw [Function.update_of_ne (ne_of_mem_of_not_mem hx hnl),
      Function.update_of_ne (ne_of_mem_of_not_mem hx (hout _ hnext))]

theorem remove {n : α} (hw : WellFormed h S) (hn : Sequences.Has S n) :
    WellFormed (listRemove h n) (Sequences.remove S n) := by
  obtain ⟨m, hm, hnm⟩ := hn
  refine insert_alone (S := {l | l ≠ [] ∧ ∃ m ∈ S, m.erase n = l}) ⟨?_, ?_, ?_, ?_⟩ ?_ ?_
  · exact fun l hl => hl.1
  · rintro l ⟨-, k, hk, rfl⟩
    exact (hw.nodup k hk).erase n
  · rintro l ⟨-, k, hk, rfl⟩ l' ⟨-, k', hk', rfl⟩ x hx hx'
    rw [hw.apart k hk k' hk' x (List.mem_of_mem_erase hx) (List.mem_of_mem_erase hx')]
  · rintro l ⟨hne, k, hk, rfl⟩
    by_cases hnk : n ∈ k
    · exact hw.ring_erase hk hnk hne
    · rw [List.erase_of_not_mem hnk]
      exact hw.ring_remove_other hm hnm hk hnk
  · rintro l ⟨-, k, hk, rfl⟩ hmem
    exact absurd hmem ((hw.nodup k hk).not_mem_erase)
  · rw [listRemove_next, listRemove_prev]
    exact ⟨Function.update_self _ _ _, Function.update_self _ _ _⟩

end WellFormed

/-! ### Runs of calls -/

inductive ListCall (α : Type*)
  | init (list : α)
  | insert (new link : α)
  | append (new into : α)
  | remove (list : α)
  deriving DecidableEq

def ListCall.exec (h : ListLinks α) : ListCall α → ListLinks α
  | .init list => listInit h list
  | .insert new link => listInsert h new link
  | .append new into => listAppend h new into
  | .remove list => listRemove h list

/-- The memory after the calls. -/
def listRun (h : ListLinks α) (calls : List (ListCall α)) : ListLinks α :=
  calls.foldl ListCall.exec h

namespace Sequences

def step (S : Set (List α)) : ListCall α → Set (List α)
  | .init list => init S list
  | .insert new link => insertNode S new link
  | .append new into => insertNode S new into
  | .remove list => remove S list

/-- The sequences after the calls. -/
def after (S : Set (List α)) (calls : List (ListCall α)) : Set (List α) := calls.foldl step S

/-- An inserted node is initialised and in no list with others. -/
def InsertsAlone (S : Set (List α)) : ListCall α → Prop
  | .insert new _ | .append new _ => [new] ∈ S
  | .init _ | .remove _ => True

/-- Beyond that, the other node of an insertion and a removed node are initialised, and only a
node that is in no list with others is initialised. -/
def Allows (S : Set (List α)) : ListCall α → Prop
  | .init list => ∀ l ∈ S, list ∈ l → l = [list]
  | .insert new link => [new] ∈ S ∧ Has S link
  | .append new into => [new] ∈ S ∧ Has S into
  | .remove list => Has S list

/-- Every call meets the condition where it is made. -/
def Followed (ok : Set (List α) → ListCall α → Prop) : Set (List α) → List (ListCall α) → Prop
  | _, [] => True
  | S, c :: calls => ok S c ∧ Followed ok (step S c) calls

end Sequences

open Sequences

theorem WellFormed.step {h : ListLinks α} {S : Set (List α)} {c : ListCall α}
    (hw : WellFormed h S) (hc : Allows S c) : WellFormed (c.exec h) (Sequences.step S c) := by
  cases c with
  | init list => exact hw.init hc
  | insert new link => exact hw.insert hc.1 hc.2
  | append new into => exact hw.insert hc.1 hc.2
  | remove list => exact hw.remove hc

theorem WellFormed.run :
    ∀ (calls : List (ListCall α)) {h : ListLinks α} {S : Set (List α)}, WellFormed h S →
      Followed Allows S calls → WellFormed (listRun h calls) (after S calls) := by
  intro calls
  induction calls with
  | nil => exact fun hw _ => hw
  | cons c calls ih => exact fun hw hf => ih (hw.step hf.1) hf.2

/-! ### The nodes of the sequences -/

theorem has_insertNode {S : Set (List α)} {new link x : α} (hnew : [new] ∈ S)
    (hlink : Has S link) : Has (insertNode S new link) x ↔ Has S x := by
  unfold insertNode
  split
  · exact Iff.rfl
  next hne =>
  obtain ⟨m, hm, hmem⟩ := hlink
  have hmn : m ≠ [new] := by
    rintro rfl
    exact hne (List.mem_singleton.mp hmem).symm
  constructor
  · rintro ⟨l, ⟨k, hk, -, rfl⟩, hx⟩
    rcases mem_insertBefore.mp hx with hin | ⟨rfl, -⟩
    · exact ⟨k, hk, hin⟩
    · exact ⟨[x], hnew, List.mem_cons_self⟩
  · rintro ⟨k, hk, hx⟩
    by_cases hkn : k = [new]
    · subst hkn
      exact ⟨_, ⟨m, hm, hmn, rfl⟩, mem_insertBefore.mpr (Or.inr ⟨List.mem_singleton.mp hx, hmem⟩)⟩
    · exact ⟨_, ⟨k, hk, hkn, rfl⟩, mem_insertBefore.mpr (Or.inl hx)⟩

theorem has_remove {S : Set (List α)} {n x : α} (hn : Has S n) :
    Has (remove S n) x ↔ Has S x := by
  constructor
  · rintro ⟨l, rfl | ⟨-, k, hk, rfl⟩, hx⟩
    · rw [List.mem_singleton.mp hx]
      exact hn
    · exact ⟨k, hk, List.mem_of_mem_erase hx⟩
  · rintro ⟨k, hk, hx⟩
    by_cases hxn : x = n
    · exact ⟨[n], Or.inl rfl, List.mem_singleton.mpr hxn⟩
    · have hin : x ∈ k.erase n := (List.mem_erase_of_ne hxn).mpr hx
      exact ⟨k.erase n, Or.inr ⟨List.ne_nil_of_mem hin, k, hk, rfl⟩, hin⟩

theorem has_step {S : Set (List α)} {c : ListCall α} {x : α} (hc : Allows S c) :
    Has (Sequences.step S c) x ↔ Has S x ∨ c = .init x := by
  cases c with
  | init list =>
    constructor
    · rintro ⟨l, rfl | hl, hx⟩
      · exact Or.inr (by rw [List.mem_singleton.mp hx])
      · exact Or.inl ⟨l, hl, hx⟩
    · rintro (⟨l, hl, hx⟩ | heq)
      · exact ⟨l, Or.inr hl, hx⟩
      · cases heq
        exact ⟨[x], Or.inl rfl, List.mem_cons_self⟩
  | insert new link => exact (has_insertNode hc.1 hc.2).trans (or_iff_left (by simp)).symm
  | append new into => exact (has_insertNode hc.1 hc.2).trans (or_iff_left (by simp)).symm
  | remove list => exact (has_remove hc).trans (or_iff_left (by simp)).symm

/-- The sequences hold the nodes that were initialised. -/
theorem has_after {x : α} :
    ∀ (calls : List (ListCall α)) {S : Set (List α)}, Followed Allows S calls →
      (Has (after S calls) x ↔ Has S x ∨ .init x ∈ calls) := by
  intro calls
  induction calls with
  | nil => exact fun _ => by simp [after]
  | cons c calls ih =>
    intro S hf
    have hstep := has_step (x := x) hf.1
    have hrun := ih hf.2
    rw [after, List.foldl_cons, ← after, hrun, hstep, List.mem_cons, or_assoc, eq_comm]

/-- **The lists are rings in the order of their sequences**, `next` and `prev` are inverse to
each other on them, and `list_next` and `list_last` are `NULL` just for a node alone. -/
theorem listRun_rings (h : ListLinks α) (calls : List (ListCall α))
    (hcalls : Followed Allows ∅ calls) :
    let S := after ∅ calls
    let h' := listRun h calls
    (∀ x, Has S x ↔ .init x ∈ calls) ∧
    (∀ l ∈ S, ∀ m ∈ S, ∀ x, x ∈ l → x ∈ m → l = m) ∧
    ∀ l ∈ S, l.Nodup ∧ ∀ x (hx : x ∈ l),
      (h'.next x = l.next x hx ∧ h'.prev x = l.prev x hx) ∧
      h'.prev (h'.next x) = x ∧ h'.next (h'.prev x) = x ∧
      listNext h' x = (if l = [x] then none else some (l.next x hx)) ∧
      listLast h' x = (if l = [x] then none else some (l.prev x hx)) := by
  intro S h'
  have hw : WellFormed h' S := (WellFormed.empty h).run calls hcalls
  refine ⟨fun x => ?_, hw.apart, fun l hl => ⟨hw.nodup l hl, fun x hx => ?_⟩⟩
  · rw [has_after calls hcalls]
    exact or_iff_right fun ⟨l, hl, _⟩ => absurd hl (Set.notMem_empty l)
  · obtain ⟨⟨hnext, hprev⟩, hpn, hnp⟩ := (hw.ring l hl).neighbours (hw.nodup l hl) hx
    obtain ⟨hnself, hpself⟩ := (hw.ring l hl).eq_singleton_iff (hw.nodup l hl) hx
    refine ⟨⟨hnext, hprev⟩, hpn, hnp, ?_, ?_⟩
    · by_cases halone : l = [x]
      · rw [listNext, if_neg (not_not_intro (hnself.mpr halone)), if_pos halone]
      · rw [listNext, if_pos fun he => halone (hnself.mp he), if_neg halone, hnext]
    · by_cases halone : l = [x]
      · rw [listLast, if_neg (not_not_intro (hpself.mpr halone)), if_pos halone]
      · rw [listLast, if_pos fun he => halone (hpself.mp he), if_neg halone, hprev]

/-- Two lists, one of them put into the other and taken out again. -/
theorem listRun_rings_remove :
    let S := after ∅ [.init 0, .init 1, .append 1 0, .remove 1]
    let h' := listRun ⟨fun n => n + 1, fun _ => 0⟩ [.init 0, .init 1, .append 1 0, .remove 1]
    (∀ x, Has S x ↔ .init x ∈ [.init 0, .init 1, ListCall.append 1 0, .remove 1]) ∧
    (∀ l ∈ S, ∀ m ∈ S, ∀ x, x ∈ l → x ∈ m → l = m) ∧
    ∀ l ∈ S, l.Nodup ∧ ∀ x (hx : x ∈ l),
      (h'.next x = l.next x hx ∧ h'.prev x = l.prev x hx) ∧
      h'.prev (h'.next x) = x ∧ h'.next (h'.prev x) = x ∧
      listNext h' x = (if l = [x] then none else some (l.next x hx)) ∧
      listLast h' x = (if l = [x] then none else some (l.prev x hx)) := by
  have hzero : Has (Sequences.init (Sequences.init ∅ 0) 1) 0 :=
    ⟨[0], Or.inr (Or.inl rfl), List.mem_cons_self⟩
  have hone : Has (Sequences.init (Sequences.init ∅ 0) 1) 1 :=
    ⟨[1], Or.inl rfl, List.mem_cons_self⟩
  refine listRun_rings _ _ ⟨?_, ?_, ⟨Or.inl rfl, hzero⟩, ?_, trivial⟩
  · exact fun l hl => absurd hl (Set.notMem_empty l)
  · rintro l (rfl | hl) hin
    · exact absurd hin (by decide)
    · exact absurd hl (Set.notMem_empty l)
  · exact (has_insertNode (Or.inl rfl) hzero).mpr hone

/-! ### What else breaks a ring -/

/-- Some list without repetitions that has the node is linked in a circle. -/
def ListLinks.InRing (h : ListLinks α) (x : α) : Prop :=
  ∃ l : List α, x ∈ l ∧ l.Nodup ∧ Ring h.next h.prev l

theorem ListLinks.InRing.next {h : ListLinks α} {x : α} (hx : h.InRing x) :
    h.InRing (h.next x) ∧ h.prev (h.next x) = x ∧ h.next (h.prev x) = x := by
  obtain ⟨l, hmem, hn, hring⟩ := hx
  obtain ⟨⟨hnext, -⟩, hinv⟩ := hring.neighbours hn hmem
  refine ⟨⟨l, ?_, hn, hring⟩, hinv⟩
  rw [hnext]
  exact l.next_mem x hmem

/-- Memory before anything is initialised. -/
def exampleLinks : ListLinks Nat := ⟨fun n => n + 1, fun _ => 0⟩

/-- In each of the runs the inserted nodes are initialised and alone.  The first initialises a
node that is linked with another one, the second inserts before a node that is not
initialised, and the third removes one that is not. -/
theorem exampleLinks_not_inRing :
    (Followed InsertsAlone ∅ [.init 0, .init 1, .insert 1 0, .init 0] ∧
      ¬ (listRun exampleLinks [.init 0, .init 1, .insert 1 0, .init 0]).InRing 1) ∧
    (Followed InsertsAlone ∅ [.init 1, .insert 1 2] ∧
      ¬ (listRun exampleLinks [.init 1, .insert 1 2]).InRing 1) ∧
    Followed InsertsAlone ∅ [.init 0, .remove 2] ∧
      ¬ (listRun exampleLinks [.init 0, .remove 2]).InRing 0 := by
  refine ⟨⟨⟨trivial, trivial, Or.inl rfl, trivial, trivial⟩, fun h => ?_⟩,
    ⟨⟨trivial, Or.inl rfl, trivial⟩, fun h => ?_⟩, ⟨trivial, trivial, trivial⟩, fun h => ?_⟩
  · exact absurd h.next.2.1 (by decide)
  · exact absurd h.next.1.next.2.1 (by decide)
  · exact absurd h.next.2.2 (by decide)

end AncoreOS.Arch
