import AncoreOS.Heap.TlsfInit
import AncoreOS.Klibc.Calloc

/-!
# Runs of the kernel heap

A client sees blocks with bytes in them.  `Held` is what it may rely on: the bytes behind each of its
pointers, in a map that knows nothing of headers, rows and lists.  `effect` says what a call does to
the map, and `Serves` that the heap holds what the map says.

Every call that a client may make is answered, and keeps `Serves` (`step_serves`); so does a run of
them (`run_serves`).  When nothing is held any more, the heap is what it was in the beginning
(`Serves.of_nothing`).
-/

namespace AncoreOS.Heap

open ByteMemory WordCells BlockTiling

/-! ### The calls of `stdlib.c` -/

def malloc (kernelTlsf size : Word) (m : Mem) : Option (Word × Mem) := tlsfMalloc m kernelTlsf size

def free (kernelTlsf ptr : Word) (m : Mem) : Option Mem := tlsfFree m kernelTlsf ptr

def calloc (kernelTlsf nmemb size : Word) (m : Mem) : Option (Word × Mem) := do
  let total := nmemb * size
  let (ptr, m) ← malloc kernelTlsf total m
  if ptr ≠ 0 then
    return (ptr, Klibc.callocLoop ptr total.toNat 0 m)
  else
    return (ptr, m)

def realloc (kernelTlsf ptr size : Word) (m : Mem) : Option (Word × Mem) :=
  tlsfRealloc m kernelTlsf ptr size

/-! ### Clients -/

/-- The bytes behind each pointer. -/
abbrev Held := Word → Option (List (BitVec 8))

inductive Call
  | malloc (size : Word)
  | calloc (nmemb size : Word)
  | realloc (ptr size : Word)
  | free (ptr : Word)
  | write (ptr : Word) (i : Nat) (v : BitVec 8)

/-- The answer to a call, and the memory after it. -/
def Call.exec (kernelTlsf : Word) : Call → Mem → Option (Word × Mem)
  | .malloc size, m => Heap.malloc kernelTlsf size m
  | .calloc nmemb size, m => Heap.calloc kernelTlsf nmemb size m
  | .realloc ptr size, m => Heap.realloc kernelTlsf ptr size m
  | .free ptr, m => (Heap.free kernelTlsf ptr m).map fun m => (0, m)
  | .write ptr i v, m => some (0, Function.update m (ptr + BitVec.ofNat 64 i) v)

/-- What a client may do: it frees and resizes what it holds, and writes into it.  A size near
`2 ^ 64` would wrap, and a block must not be resized to one that there cannot be. -/
def Call.Allowed (held : Held) : Call → Prop
  | .malloc size => size.toNat ≤ 2 ^ 64 - 8
  | .calloc nmemb size => (nmemb * size).toNat ≤ 2 ^ 64 - 8
  | .realloc ptr size =>
      if ptr = 0 then size.toNat ≤ 2 ^ 64 - 8 else (held ptr).isSome ∧ size.toNat ≤ 2 ^ 32 - 8
  | .free ptr => ptr = 0 ∨ (held ptr).isSome
  | .write ptr i _ => ∃ bytes, held ptr = some bytes ∧ i < bytes.length

def bytesAt (m : Mem) (p : Word) (n : Nat) : List (BitVec 8) :=
  (List.range n).map fun i => m (p + BitVec.ofNat 64 i)

/-- What a call does to the blocks, when the answer is `q`.  The bytes that nobody has written are
those of the memory after it. -/
def Call.effect (q : Word) (m' : Mem) (held : Held) : Call → Held
  | .malloc size => if q = 0 then held else Function.update held q (some (bytesAt m' q size.toNat))
  | .calloc nmemb size =>
      if q = 0 then held else Function.update held q (some (List.replicate (nmemb * size).toNat 0))
  | .realloc ptr size =>
      let old := (held ptr).getD []
      if q = 0 then if size = 0 then Function.update held ptr none else held
      else Function.update (Function.update held ptr none) q
        (some (old.take size.toNat ++ (bytesAt m' q size.toNat).drop old.length))
  | .free ptr => Function.update held ptr none
  | .write ptr i v => Function.update held ptr ((held ptr).map fun bytes => bytes.set i v)

/-- The heap holds what the clients rely on, and has no block that nobody holds. -/
structure Serves (m : Mem) (l : List Block) (held : Held) : Prop where
  block : ∀ p bytes, held p = some bytes → ∃ b ∈ usedOf l, p = BitVec.ofNat 64 (b.addr + 16) ∧
    bytes.length ≤ b.size ∧ ∀ i < bytes.length, bytes[i]? = some (m (BitVec.ofNat 64 (b.addr + 16 + i)))
  client : ∀ b ∈ usedOf l, (held (BitVec.ofNat 64 (b.addr + 16))).isSome

variable {m m' : Mem} {c s e k n : Nat} {l l' : List Block} {b d : Block} {held : Held}
  {bytes : List (BitVec 8)}

theorem Sound.ptr_inj (h : Sound m c s e l) (hb : b ∈ usedOf l) (hd : d ∈ usedOf l)
    (heq : BitVec.ofNat 64 (b.addr + 16) = BitVec.ofNat 64 (d.addr + 16)) : b = d := by
  have hrow := h.arena.row
  have hblt := hrow.addr_lt (mem_usedOf.mp hb).1
  have hdlt := hrow.addr_lt (mem_usedOf.mp hd).1
  have hbs := (hrow.sized (mem_usedOf.mp hb).1).2.1
  have hds := (hrow.sized (mem_usedOf.mp hd).1).2.1
  rw [ofNat_eq_iff (by omega) (by omega)] at heq
  exact hrow.tiles.eq_of_addr (by omega) (mem_usedOf.mp hb).1 (mem_usedOf.mp hd).1 (by omega)

theorem Sound.ptr_ne_zero (h : Sound m c s e l) (hb : b ∈ usedOf l) :
    BitVec.ofNat 64 (b.addr + 16) ≠ 0 := by
  have hlt := h.arena.row.addr_lt (mem_usedOf.mp hb).1
  exact ofNat_ne_zero (by omega) (by omega)

theorem Serves.none_zero (hs : Sound m c s e l) (h : Serves m l held) : held 0 = none := by
  cases hz : held 0 with
  | none => rfl
  | some bytes =>
    obtain ⟨b, hb, hp, -⟩ := h.block 0 bytes hz
    exact absurd hp.symm (hs.ptr_ne_zero hb)

/-- The bytes outside of the heap. -/
def SameOutside (c e : Nat) (m m' : Mem) : Prop :=
  ∀ x < 2 ^ 64, x < c ∨ e + 16 ≤ x → m' (BitVec.ofNat 64 x) = m (BitVec.ofNat 64 x)

theorem SameOutside.refl (c e : Nat) (m : Mem) : SameOutside c e m m := fun _ _ _ => rfl

/-! ### What a call keeps -/

theorem Serves.given (h : Serves m l held) (hg : Given c e m m' l l' d) (hlen : bytes.length ≤ d.size)
    (hbytes : ∀ i < bytes.length, bytes[i]? = some (m' (BitVec.ofNat 64 (d.addr + 16 + i)))) :
    Serves m' l' (Function.update held (BitVec.ofNat 64 (d.addr + 16)) (some bytes)) := by
  refine ⟨fun p old hp => ?_, fun b hb => ?_⟩
  · by_cases hpd : p = BitVec.ofNat 64 (d.addr + 16)
    · subst hpd
      rw [Function.update_self, Option.some.injEq] at hp
      subst hp
      exact ⟨d, (hg.mem_iff d).mpr (Or.inl rfl), rfl, hlen, hbytes⟩
    · rw [Function.update_of_ne hpd] at hp
      obtain ⟨b, hb, hpb, hble, hold⟩ := h.block p old hp
      refine ⟨b, (hg.mem_iff b).mpr (Or.inr hb), hpb, hble, fun i hi => ?_⟩
      rw [hold i hi, hg.others b hb _ ⟨by omega, by omega⟩]
  · by_cases hpd : BitVec.ofNat 64 (b.addr + 16) = BitVec.ofNat 64 (d.addr + 16)
    · rw [hpd, Function.update_self]
      rfl
    · rw [Function.update_of_ne hpd]
      rcases (hg.mem_iff b).mp hb with rfl | hb
      · exact absurd rfl hpd
      · exact h.client b hb

theorem Serves.taken (hs : Sound m c s e l) (h : Serves m l held) (ht : Taken c e m m' l l' b)
    (hb : b ∈ usedOf l) :
    Serves m' l' (Function.update held (BitVec.ofNat 64 (b.addr + 16)) none) := by
  refine ⟨fun p old hp => ?_, fun q hq => ?_⟩
  · by_cases hpb : p = BitVec.ofNat 64 (b.addr + 16)
    · rw [hpb, Function.update_self] at hp
      cases hp
    · rw [Function.update_of_ne hpb] at hp
      obtain ⟨q, hq, hpq, hle, hold⟩ := h.block p old hp
      have hqb : q ≠ b := by
        rintro rfl
        exact hpb hpq
      refine ⟨q, (ht.mem_iff q).mpr ⟨hq, hqb⟩, hpq, hle, fun i hi => ?_⟩
      rw [hold i hi, ht.others q hq hqb _ ⟨by omega, by omega⟩]
  · obtain ⟨hq, hqb⟩ := (ht.mem_iff q).mp hq
    rw [Function.update_of_ne fun heq => hqb (hs.ptr_inj hq hb heq)]
    exact h.client q hq

theorem Serves.moved (hs : Sound m c s e l) (h : Serves m l held) (hm : Moved c e m m' l l' b d k)
    (hb : b ∈ usedOf l) (hlen : bytes.length ≤ d.size)
    (hbytes : ∀ i < bytes.length, bytes[i]? = some (m' (BitVec.ofNat 64 (d.addr + 16 + i)))) :
    Serves m' l' (Function.update (Function.update held (BitVec.ofNat 64 (b.addr + 16)) none)
      (BitVec.ofNat 64 (d.addr + 16)) (some bytes)) := by
  refine ⟨fun p old hp => ?_, fun q hq => ?_⟩
  · by_cases hpd : p = BitVec.ofNat 64 (d.addr + 16)
    · subst hpd
      rw [Function.update_self, Option.some.injEq] at hp
      subst hp
      exact ⟨d, (hm.mem_iff d).mpr (Or.inl rfl), rfl, hlen, hbytes⟩
    · rw [Function.update_of_ne hpd] at hp
      by_cases hpb : p = BitVec.ofNat 64 (b.addr + 16)
      · rw [hpb, Function.update_self] at hp
        cases hp
      · rw [Function.update_of_ne hpb] at hp
        obtain ⟨q, hq, hpq, hle, hold⟩ := h.block p old hp
        have hqb : q ≠ b := by
          rintro rfl
          exact hpb hpq
        refine ⟨q, (hm.mem_iff q).mpr (Or.inr ⟨hq, hqb⟩), hpq, hle, fun i hi => ?_⟩
        rw [hold i hi, hm.others q hq hqb _ ⟨by omega, by omega⟩]
  · by_cases hqd : BitVec.ofNat 64 (q.addr + 16) = BitVec.ofNat 64 (d.addr + 16)
    · rw [hqd, Function.update_self]
      rfl
    · rw [Function.update_of_ne hqd]
      rcases (hm.mem_iff q).mp hq with rfl | ⟨hq, hqb⟩
      · exact absurd rfl hqd
      · rw [Function.update_of_ne fun heq => hqb (hs.ptr_inj hq hb heq)]
        exact h.client q hq

theorem add_ptr (a i : Nat) : BitVec.ofNat 64 a + BitVec.ofNat 64 i = BitVec.ofNat 64 (a + i) :=
  (BitVec.ofNat_add a i).symm

@[simp] theorem bytesAt_length (m : Mem) (p : Word) (n : Nat) : (bytesAt m p n).length = n := by
  simp [bytesAt]

theorem bytesAt_getElem? {i a : Nat} (hi : i < n) :
    (bytesAt m (BitVec.ofNat 64 a) n)[i]? = some (m (BitVec.ofNat 64 (a + i))) := by
  simp [bytesAt, hi, add_ptr]

/-- What two blocks hold is apart. -/
theorem Sound.payload_apart (h : Sound m c s e l) (hb : b ∈ usedOf l) (hd : d ∈ usedOf l) {x : Nat}
    (hbx : Payload b x) (hdx : Payload d x) : b = d := by
  obtain ⟨hb1, hb2⟩ := hbx
  obtain ⟨hd1, hd2⟩ := hdx
  rcases h.arena.row.tiles.apart (mem_usedOf.mp hb).1 (mem_usedOf.mp hd).1 with hbd | hbd | hbd
  · exact hbd
  · simp only [Block.stop] at hbd
    omega
  · simp only [Block.stop] at hbd
    omega

/-- A block that was given may be filled. -/
theorem Given.fill {m'' : Mem} (hg : Given c e m m' l l' d) (hs : Sound m' c s e l')
    (hkeep : ∀ x < 2 ^ 64, ¬Payload d x → m'' (BitVec.ofNat 64 x) = m' (BitVec.ofNat 64 x)) :
    Given c e m m'' l l' d where
  used := hg.used
  fresh := hg.fresh
  mem_iff := hg.mem_iff
  others q hq x hx := by
    have hq' : q ∈ usedOf l' := (hg.mem_iff q).mpr (Or.inr hq)
    have hd' : d ∈ usedOf l' := (hg.mem_iff d).mpr (Or.inl rfl)
    have hlt := hs.arena.row.addr_lt (mem_usedOf.mp hq').1
    have hx2 := hx.2
    rw [hkeep x (by omega) fun hdx => ?_, hg.others q hq x hx]
    exact hg.fresh q hq (congrArg Block.addr (hs.payload_apart hq' hd' hx hdx))
  outside x hx hout := by
    have hd' : d ∈ usedOf l' := (hg.mem_iff d).mpr (Or.inl rfl)
    have hlt := hs.arena.row.addr_lt (mem_usedOf.mp hd').1
    have hle := hs.arena.control_le
    rw [hkeep x hx fun hdx => ?_, hg.outside x hx hout]
    have := hdx.1
    have := hdx.2
    omega

theorem Serves.write (hs : Sound m c s e l) (h : Serves m l held) {p : Word} {i : Nat} (v : BitVec 8)
    (hp : held p = some bytes) (hi : i < bytes.length) :
    Sound (Function.update m (p + BitVec.ofNat 64 i) v) c s e l ∧
      Serves (Function.update m (p + BitVec.ofNat 64 i) v) l
        (Function.update held p (some (bytes.set i v))) ∧
      SameOutside c e m (Function.update m (p + BitVec.ofNat 64 i) v) := by
  obtain ⟨b, hb, rfl, hle, hbytes⟩ := h.block p bytes hp
  have hbu := mem_usedOf.mp hb
  have hblt := hs.arena.row.addr_lt hbu.1
  rw [add_ptr]
  have hother : ∀ x < 2 ^ 64, x ≠ b.addr + 16 + i →
      Function.update m (BitVec.ofNat 64 (b.addr + 16 + i)) v (BitVec.ofNat 64 x) =
        m (BitVec.ofNat 64 x) := by
    intro x hx hne
    rw [Function.update_of_ne]
    rwa [ne_eq, ofNat_eq_iff hx (by omega)]
  have hle := hs.arena.control_le
  refine ⟨hs.write hbu.1 hbu.2 fun x hx hno => hother x hx ?_, ⟨?_, fun d hd => ?_⟩,
    fun x hx hout => hother x hx (by omega)⟩
  · rintro rfl
    exact hno ⟨by omega, by omega⟩
  · intro q old hq
    by_cases hqp : q = BitVec.ofNat 64 (b.addr + 16)
    · subst hqp
      rw [Function.update_self, Option.some.injEq] at hq
      subst hq
      refine ⟨b, hb, rfl, by rwa [List.length_set], fun j hj => ?_⟩
      rw [List.length_set] at hj
      by_cases hji : j = i
      · subst hji
        rw [List.getElem?_set_self hj, Function.update_self]
      · rw [List.getElem?_set_ne (fun h => hji h.symm), hbytes j hj, hother _ (by omega) (by omega)]
    · rw [Function.update_of_ne hqp] at hq
      obtain ⟨d, hd, rfl, hdle, hold⟩ := h.block q old hq
      have hdb : d ≠ b := by
        rintro rfl
        exact hqp rfl
      have hdlt := hs.arena.row.addr_lt (mem_usedOf.mp hd).1
      refine ⟨d, hd, rfl, hdle, fun j hj => ?_⟩
      rw [hold j hj, hother _ (by omega) fun heq => ?_]
      refine hdb (hs.payload_apart hd hb (x := d.addr + 16 + j) ⟨by omega, by omega⟩ ?_)
      exact ⟨by omega, by omega⟩
  · by_cases hdp : BitVec.ofNat 64 (d.addr + 16) = BitVec.ofNat 64 (b.addr + 16)
    · rw [hdp, Function.update_self]
      rfl
    · rw [Function.update_of_ne hdp]
      exact h.client d hd

/-! ### One call -/

/-- A call is answered, the heap stays sound, and it holds what the clients rely on afterwards. -/
def Answered (c s e : Nat) (m : Mem) (held : Held) (call : Call) : Prop :=
  ∃ q m' l', call.exec (BitVec.ofNat 64 c) m = some (q, m') ∧ Sound m' c s e l' ∧
    Serves m' l' (call.effect q m' held) ∧ SameOutside c e m m'

theorem malloc_answered (hs : Sound m c s e l) (h : Serves m l held) {size : Word}
    (hsize : size.toNat ≤ 2 ^ 64 - 8) :
    (tlsfMalloc m (BitVec.ofNat 64 c) size = some (0, m)) ∨
    ∃ d m' l', tlsfMalloc m (BitVec.ofNat 64 c) size = some (BitVec.ofNat 64 (d.addr + 16), m') ∧
      BitVec.ofNat 64 (d.addr + 16) ≠ 0 ∧ Sound m' c s e l' ∧ size.toNat ≤ d.size ∧
      Given c e m m' l l' d ∧ Serves m' l' (Function.update held (BitVec.ofNat 64 (d.addr + 16))
        (some (bytesAt m' (BitVec.ofNat 64 (d.addr + 16)) size.toNat))) := by
  rcases hs.malloc_given size with ⟨heq, -⟩ | ⟨d, m', l', heq, hs', hn, hnd, hg⟩
  · exact Or.inl heq
  · right
    have hle : size.toNat ≤ d.size := (le_adjusted hn hsize).trans hnd
    refine ⟨d, m', l', heq, hs'.ptr_ne_zero ((hg.mem_iff d).mpr (Or.inl rfl)), hs', hle, hg, ?_⟩
    refine h.given hg (by rwa [bytesAt_length]) fun i hi => ?_
    rw [bytesAt_length] at hi
    exact bytesAt_getElem? hi

theorem calloc_answered (hs : Sound m c s e l) (h : Serves m l held) {nmemb size : Word}
    (hsize : (nmemb * size).toNat ≤ 2 ^ 64 - 8) : Answered c s e m held (.calloc nmemb size) := by
  rcases malloc_answered hs h hsize with heq | ⟨d, m', l', heq, hne, hs', hle, hg, -⟩
  · refine ⟨0, m, l, ?_, hs, by simpa [Call.effect] using h, SameOutside.refl c e m⟩
    simp [Call.exec, calloc, malloc, heq]
  · have hd' := (hg.mem_iff d).mpr (Or.inl rfl)
    have hdlt := hs'.arena.row.addr_lt (mem_usedOf.mp hd').1
    have hfill : ∀ x < 2 ^ 64,
        Klibc.callocLoop (BitVec.ofNat 64 (d.addr + 16)) (nmemb * size).toNat 0 m' (BitVec.ofNat 64 x) =
          if d.addr + 16 ≤ x ∧ x < d.addr + 16 + (nmemb * size).toNat then 0 else m' (BitVec.ofNat 64 x) := by
      intro x hx
      have hbound : 0 + (nmemb * size).toNat ≤ 2 ^ 64 := by omega
      have hloop := Klibc.callocLoop_eq (BitVec.ofNat 64 (d.addr + 16)) hbound m' (BitVec.ofNat 64 x)
      rw [BitVec.add_zero] at hloop
      exact hloop.trans (if_congr (inRange_ofNat hx (by omega)) rfl rfl)
    have hkeep : ∀ x < 2 ^ 64, ¬Payload d x →
        Klibc.callocLoop (BitVec.ofNat 64 (d.addr + 16)) (nmemb * size).toNat 0 m' (BitVec.ofNat 64 x) =
          m' (BitVec.ofNat 64 x) := by
      intro x hx hno
      rw [hfill x hx, if_neg]
      rintro ⟨hlow, hhigh⟩
      exact hno ⟨hlow, by omega⟩
    refine ⟨BitVec.ofNat 64 (d.addr + 16), Klibc.callocLoop (BitVec.ofNat 64 (d.addr + 16))
      (nmemb * size).toNat 0 m', l', ?_, hs'.write (mem_usedOf.mp hd').1 hg.used hkeep, ?_,
      (hg.fill hs' hkeep).outside⟩
    · simp only [Call.exec, calloc, malloc, heq, Option.bind_eq_bind, Option.bind_some, if_pos hne]
      rfl
    · rw [Call.effect, if_neg hne]
      refine h.given (hg.fill hs' hkeep) (by rwa [List.length_replicate]) fun i hi => ?_
      rw [List.length_replicate] at hi
      rw [hfill _ (by omega), if_pos ⟨by omega, by omega⟩, List.getElem?_replicate, if_pos hi]

theorem free_answered (hs : Sound m c s e l) (h : Serves m l held) {p : Word}
    (hp : p = 0 ∨ (held p).isSome) : ∃ m' l', tlsfFree m (BitVec.ofNat 64 c) p = some m' ∧
      Sound m' c s e l' ∧ Serves m' l' (Function.update held p none) ∧ SameOutside c e m m' := by
  by_cases hzero : p = 0
  · subst hzero
    refine ⟨m, l, by simp [tlsfFree], hs, ?_, SameOutside.refl c e m⟩
    rwa [Function.update_eq_self_iff.mpr (h.none_zero hs).symm]
  · obtain ⟨bytes, hbytes⟩ := Option.isSome_iff_exists.mp (hp.resolve_left hzero)
    obtain ⟨b, hb, rfl, -⟩ := h.block p bytes hbytes
    obtain ⟨m', l', heq, hs', ht⟩ := hs.free_taken hb
    exact ⟨m', l', heq, hs', h.taken hs ht hb, ht.outside⟩

theorem realloc_answered (hs : Sound m c s e l) (h : Serves m l held) {p size : Word}
    (hok : (Call.realloc p size).Allowed held) : Answered c s e m held (.realloc p size) := by
  by_cases hp : p = 0
  · subst hp
    rw [Call.Allowed, if_pos rfl] at hok
    have hnone := h.none_zero hs
    have hsame : Function.update held 0 none = held := Function.update_eq_self_iff.mpr hnone.symm
    have hexec : tlsfRealloc m (BitVec.ofNat 64 c) 0 size = tlsfMalloc m (BitVec.ofNat 64 c) size := by
      simp [tlsfRealloc]
    rcases malloc_answered hs h hok with heq | ⟨d, m', l', heq, hne, hs', -, hg, h'⟩
    · refine ⟨0, m, l, by rw [Call.exec, realloc, hexec, heq], hs, ?_, SameOutside.refl c e m⟩
      rw [Call.effect, if_pos rfl, hsame, ite_self]
      exact h
    · refine ⟨_, m', l', by rw [Call.exec, realloc, hexec, heq], hs', ?_, hg.outside⟩
      rw [Call.effect, if_neg hne, hsame, hnone]
      simpa using h'
  · rw [Call.Allowed, if_neg hp] at hok
    obtain ⟨old, hold⟩ := Option.isSome_iff_exists.mp hok.1
    obtain ⟨b, hb, rfl, hble, hbytes⟩ := h.block p old hold
    by_cases hzero : size = 0
    · subst hzero
      obtain ⟨m', l', heq, hs', h', hout⟩ := free_answered hs h (Or.inr hok.1)
      refine ⟨0, m', l', ?_, hs', ?_, hout⟩
      · rw [Call.exec, realloc, tlsfRealloc, if_pos ⟨hp, rfl⟩, heq]
        rfl
      · rw [Call.effect, if_pos rfl, if_pos rfl]
        exact h'
    · have hpos : 0 < size.toNat := by
        rw [Nat.pos_iff_ne_zero]
        exact fun hz => hzero (BitVec.eq_of_toNat_eq hz)
      have hn : adjusted size.toNat ≠ 0 := by
        rw [ne_eq, adjusted_eq_zero_iff size.isLt]
        omega
      have hadj : size.toNat ≤ adjusted size.toNat := le_adjusted hn (by omega)
      rcases hs.realloc hb size hn with ⟨heq, -⟩ | ⟨d, m', l', heq, hs', hle, hm⟩
      · refine ⟨0, m, l, heq, hs, ?_, SameOutside.refl c e m⟩
        rw [Call.effect, if_pos rfl, if_neg hzero]
        exact h
      · have hne := hs'.ptr_ne_zero ((hm.mem_iff d).mpr (Or.inl rfl))
        refine ⟨_, m', l', heq, hs', ?_, hm.outside⟩
        rw [Call.effect, if_neg hne, hold]
        have hlen : (old.take size.toNat ++
            (bytesAt m' (BitVec.ofNat 64 (d.addr + 16)) size.toNat).drop old.length).length = size.toNat := by
          rw [List.length_append, List.length_take, List.length_drop, bytesAt_length]
          omega
        refine h.moved hs hm hb (hlen.le.trans (hadj.trans hle)) fun i hi => ?_
        rw [Option.getD_some, hlen] at hi
        rw [Option.getD_some]
        by_cases hio : i < old.length
        · rw [List.getElem?_append_left (by rw [List.length_take]; omega),
            List.getElem?_take_of_lt hi, hbytes i hio, hm.first i (by omega)]
        · rw [List.getElem?_append_right (by rw [List.length_take]; omega), List.getElem?_drop,
            List.length_take, Nat.min_eq_right (by omega)]
          rw [show old.length + (i - old.length) = i by omega]
          exact bytesAt_getElem? hi

/-- **Every call that a client may make is answered.** -/
theorem step_serves (hs : Sound m c s e l) (h : Serves m l held) {call : Call}
    (hok : call.Allowed held) : Answered c s e m held call := by
  cases call with
  | malloc size =>
    rcases malloc_answered hs h hok with heq | ⟨d, m', l', heq, hne, hs', -, hg, h'⟩
    · exact ⟨0, m, l, heq, hs, by simpa [Call.effect] using h, SameOutside.refl c e m⟩
    · refine ⟨_, m', l', heq, hs', ?_, hg.outside⟩
      rwa [Call.effect, if_neg hne]
  | calloc nmemb size => exact calloc_answered hs h hok
  | realloc p size => exact realloc_answered hs h hok
  | free p =>
    obtain ⟨m', l', heq, hs', h', hout⟩ := free_answered hs h hok
    exact ⟨0, m', l', by simp [Call.exec, free, heq], hs', h', hout⟩
  | write p i v =>
    obtain ⟨bytes, hp, hi⟩ := hok
    obtain ⟨hs', h', hout⟩ := h.write hs v hp hi
    refine ⟨0, _, l, rfl, hs', ?_, hout⟩
    rw [Call.effect, hp]
    exact h'

/-! ### Runs -/

/-- The calls one after the other, and what is held after them. -/
def run (kernelTlsf : Word) : List Call → Mem → Held → Option (Mem × Held)
  | [], m, held => some (m, held)
  | call :: calls, m, held => do
    let (q, m') ← call.exec kernelTlsf m
    run kernelTlsf calls m' (call.effect q m' held)

/-- Each call is allowed when its turn comes.  It may depend on the answers before it. -/
def AllowedRun (kernelTlsf : Word) : List Call → Mem → Held → Prop
  | [], _, _ => True
  | call :: calls, m, held => call.Allowed held ∧
    ∀ q m', call.exec kernelTlsf m = some (q, m') →
      AllowedRun kernelTlsf calls m' (call.effect q m' held)

theorem run_serves {calls : List Call} (hs : Sound m c s e l) (h : Serves m l held)
    (hok : AllowedRun (BitVec.ofNat 64 c) calls m held) : ∃ m' held' l',
      run (BitVec.ofNat 64 c) calls m held = some (m', held') ∧ Sound m' c s e l' ∧ Serves m' l' held' ∧
        SameOutside c e m m' := by
  induction calls generalizing m l held with
  | nil => exact ⟨m, held, l, rfl, hs, h, SameOutside.refl c e m⟩
  | cons call calls ih =>
    obtain ⟨hcall, hrest⟩ := hok
    obtain ⟨q, m₁, l₁, heq, hs₁, h₁, hout₁⟩ := step_serves hs h hcall
    obtain ⟨m', held', l', hrun, hs', h', hout'⟩ := ih hs₁ h₁ (hrest q m₁ heq)
    refine ⟨m', held', l', ?_, hs', h', fun x hx hx' => (hout' x hx hx').trans (hout₁ x hx hx')⟩
    rw [run, heq]
    exact hrun

/-- Nothing is held of a new heap. -/
theorem serves_new (m : Mem) (s bytes : Nat) : Serves m [poolBlock s bytes] fun _ => none :=
  ⟨by simp, fun b hb => by simp [usedOf, poolBlock] at hb⟩

/-- **A heap of which nothing is held is one free block.** -/
theorem Serves.of_nothing (hs : Sound m c s e l) (h : Serves m l fun _ => none) (hse : s ≠ e) :
    l = [{ addr := s, size := e - s - 8, free := true }] := by
  refine hs.arena.row.tiles.eq_free_block hs.coalesced ?_ hse
  rw [List.eq_nil_iff_forall_not_mem]
  intro b hb
  simpa using h.client b hb

/-! ### The heap from its creation -/

/-- What the clients of a heap of `bytes` bytes at `a` may rely on. -/
structure Intact (a bytes : Nat) (m : Mem) (held : Held) : Prop where
  aligned : ∀ p old, held p = some old → p.toNat % 8 = 0
  inside : ∀ p old, held p = some old → a ≤ p.toNat ∧ p.toNat + old.length ≤ a + bytes
  bytes : ∀ p old, held p = some old → bytesAt m p old.length = old
  apart : ∀ p q old other, held p = some old → held q = some other → p ≠ q →
    p.toNat + old.length ≤ q.toNat ∨ q.toNat + other.length ≤ p.toNat

theorem Serves.intact {a pool : Nat} (hs : Sound m c s e l) (h : Serves m l held) (hac : a ≤ c)
    (he : e + 16 ≤ a + pool) : Intact a pool m held := by
  have hle := hs.arena.control_le
  have hptr : ∀ p old, held p = some old → ∃ b ∈ usedOf l, p.toNat = b.addr + 16 ∧
      p = BitVec.ofNat 64 (b.addr + 16) ∧ old.length ≤ b.size ∧ s ≤ b.addr ∧ b.addr + 8 + b.size ≤ e ∧
      ∀ i < old.length, old[i]? = some (m (BitVec.ofNat 64 (b.addr + 16 + i))) := by
    intro p old hp
    obtain ⟨b, hb, rfl, hlen, hold⟩ := h.block p old hp
    have hlt := hs.arena.row.addr_lt (mem_usedOf.mp hb).1
    exact ⟨b, hb, toNat_ofNat_of_lt (by omega), rfl, hlen, hlt.1, hlt.2.1, hold⟩
  refine ⟨fun p old hp => ?_, fun p old hp => ?_, fun p old hp => ?_, fun p q old other hp hq hpq => ?_⟩
  · obtain ⟨b, hb, hpb, -⟩ := hptr p old hp
    have := hs.arena.row.addr_mod (mem_usedOf.mp hb).1
    omega
  · obtain ⟨b, hb, hpb, -, hlen, hlow, hhigh, -⟩ := hptr p old hp
    omega
  · obtain ⟨b, hb, -, rfl, -, -, -, hold⟩ := hptr p old hp
    refine List.ext_getElem? fun i => ?_
    by_cases hi : i < old.length
    · rw [bytesAt_getElem? hi, hold i hi]
    · rw [List.getElem?_eq_none (by rw [bytesAt_length]; omega), List.getElem?_eq_none (by omega)]
  · obtain ⟨b, hb, hpb, rfl, hlen, -⟩ := hptr p old hp
    obtain ⟨d, hd, hqd, rfl, hlen', -⟩ := hptr q other hq
    have hbd : b ≠ d := by
      rintro rfl
      exact hpq rfl
    rcases hs.arena.row.tiles.apart (mem_usedOf.mp hb).1 (mem_usedOf.mp hd).1 with heq | hlt | hlt
    · exact absurd heq hbd
    · simp only [Block.stop] at hlt
      omega
    · simp only [Block.stop] at hlt
      omega

/-- A heap that `tlsf_create_with_pool` accepts. -/
structure Region (a bytes : Nat) : Prop where
  aligned : a % 8 = 0
  pos : 0 < a
  large : 6576 ≤ bytes
  indexed : poolBytes (bytes - 6536) < 2 ^ 32
  fits : a + bytes ≤ 2 ^ 64

/-! ### The heap of the kernel -/

/-- `KERNEL_HEAP_SIZE`. -/
def kernelHeapSize : Nat := 0x100000

/-- The array of `kernel.c`, at some address that the linker may give it. -/
theorem region_kernelHeap : Region 0x200000 kernelHeapSize :=
  ⟨by decide, by decide, by decide, by decide, by decide⟩

theorem kernelHeap_sound : ∃ m, tlsfCreateWithPool (fun _ => 0) (BitVec.ofNat 64 0x200000)
      (BitVec.ofNat 64 kernelHeapSize) = some (BitVec.ofNat 64 0x200000, m) ∧
    Sound m 0x200000 0x201980 0x2ffff0 [poolBlock 0x201980 0xfe678] := by
  have hr := region_kernelHeap
  obtain ⟨m, hcreate, hsound, -⟩ := create_sound hr.aligned hr.pos hr.large hr.indexed hr.fits (fun _ => 0)
  exact ⟨m, hcreate, hsound⟩

/-- A client takes 100 bytes of the kernel heap, writes one of them and gives them back. -/
def kernelCalls : List Call :=
  [.malloc 100#64, .write (BitVec.ofNat 64 0x201990) 3 7#8, .free (BitVec.ofNat 64 0x201990)]

theorem kernelCalls_allowed (hs : Sound m 0x200000 0x201980 0x2ffff0 [poolBlock 0x201980 0xfe678]) :
    AllowedRun (BitVec.ofNat 64 0x200000) kernelCalls m (fun _ => none) ∧
      ∃ m', run (BitVec.ofNat 64 0x200000) kernelCalls m (fun _ => none) = some (m', fun _ => none) := by
  obtain ⟨m₁, hmalloc⟩ := malloc_of_single hs rfl 100#64
  rw [if_neg (by decide)] at hmalloc
  have hne : BitVec.ofNat 64 0x201990 ≠ (0 : Word) := by decide
  have hheld : Call.effect (BitVec.ofNat 64 0x201990) m₁ (fun _ => none) (.malloc 100#64) =
      Function.update (fun _ => none) (BitVec.ofNat 64 0x201990)
        (some (bytesAt m₁ (BitVec.ofNat 64 0x201990) 100)) := by
    rw [Call.effect, if_neg hne]
    rfl
  have hwrite : ∀ q m' (held : Held), Call.effect q m' held (.write (BitVec.ofNat 64 0x201990) 3 7#8) =
      Function.update held (BitVec.ofNat 64 0x201990)
        ((held (BitVec.ofNat 64 0x201990)).map fun bytes => bytes.set 3 7#8) := fun _ _ _ => rfl
  have hfree : ∀ q m' (held : Held), Call.effect q m' held (.free (BitVec.ofNat 64 0x201990)) =
      Function.update held (BitVec.ofNat 64 0x201990) none := fun _ _ _ => rfl
  have hok : AllowedRun (BitVec.ofNat 64 0x200000) kernelCalls m (fun _ => none) := by
    refine ⟨by show _ ≤ _; decide, fun q m' heq => ?_⟩
    obtain ⟨rfl, rfl⟩ := Prod.mk.inj (Option.some.inj (hmalloc.symm.trans heq))
    rw [show (poolBlock 0x201980 0xfe678).addr + 16 = 0x201990 from rfl, hheld]
    refine ⟨⟨_, Function.update_self _ _ _, by rw [bytesAt_length]; decide⟩, fun q m' _ => ⟨Or.inr ?_, ?_⟩⟩
    · rw [hwrite, Function.update_self, Function.update_self]
      rfl
    · exact fun _ _ _ => trivial
  obtain ⟨m', held', -, hrun, -⟩ := run_serves hs (serves_new m _ _) hok
  refine ⟨hok, m', hrun.trans (congrArg (fun held => some (m', held)) ?_)⟩
  simp only [kernelCalls, run, Call.exec, malloc, hmalloc, Option.bind_eq_bind, Option.bind_some] at hrun
  rw [show (poolBlock 0x201980 0xfe678).addr + 16 = 0x201990 from rfl, hheld, hwrite] at hrun
  obtain ⟨a, -, heq⟩ := Option.bind_eq_some_iff.mp hrun
  rw [← (Prod.mk.inj (Option.some.inj heq)).2, hfree, Function.update_idem, Function.update_idem]
  exact Function.update_eq_self (f := fun _ => none) _

/-! ### Any run -/

/-- **No run of a new heap fails an assertion, gives two clients the same byte, loses a byte that was
written, or writes outside of the heap.** -/
theorem heap_run_intact {a bytes : Nat} (hr : Region a bytes) (m : Mem) :
    ∃ m₁, tlsfCreateWithPool m (BitVec.ofNat 64 a) (BitVec.ofNat 64 bytes) =
        some (BitVec.ofNat 64 a, m₁) ∧
      ∀ calls, AllowedRun (BitVec.ofNat 64 a) calls m₁ (fun _ => none) →
        ∃ m' held', run (BitVec.ofNat 64 a) calls m₁ (fun _ => none) = some (m', held') ∧
          Intact a bytes m' held' ∧
          ∀ x < 2 ^ 64, x < a ∨ a + bytes ≤ x → m' (BitVec.ofNat 64 x) = m₁ (BitVec.ofNat 64 x) := by
  obtain ⟨m₁, hcreate, hsound, -⟩ := create_sound hr.aligned hr.pos hr.large hr.indexed hr.fits m
  refine ⟨m₁, hcreate, fun calls hok => ?_⟩
  obtain ⟨m', held', l', hrun, hs', h', hout⟩ := run_serves hsound (serves_new m₁ _ _) hok
  have hlarge := hr.large
  have hend : a + 6536 + poolBytes (bytes - 6536) + 16 ≤ a + bytes := by
    unfold poolBytes
    omega
  refine ⟨m', held', hrun, h'.intact hs' le_rfl hend, fun x hx hx' => hout x hx ?_⟩
  omega

theorem heap_run_intact_kernel : ∃ m₁ m' held',
    tlsfCreateWithPool (fun _ => 0) (BitVec.ofNat 64 0x200000) (BitVec.ofNat 64 kernelHeapSize) =
      some (BitVec.ofNat 64 0x200000, m₁) ∧
    run (BitVec.ofNat 64 0x200000) kernelCalls m₁ (fun _ => none) = some (m', held') ∧
    Intact 0x200000 kernelHeapSize m' held' := by
  obtain ⟨m₁, hcreate, hrun⟩ := heap_run_intact region_kernelHeap (fun _ => 0)
  obtain ⟨m₂, hcreate₂, hsound⟩ := kernelHeap_sound
  rw [hcreate] at hcreate₂
  obtain rfl : m₁ = m₂ := congrArg Prod.snd (Option.some.inj hcreate₂)
  obtain ⟨m', held', heq, hintact, -⟩ := hrun kernelCalls (kernelCalls_allowed hsound).1
  exact ⟨m₁, m', held', hcreate, heq, hintact⟩

end AncoreOS.Heap
