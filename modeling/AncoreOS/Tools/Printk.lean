import AncoreOS.Tools.FormatCursor
import AncoreOS.Tools.LogBuffer

/-!
# `printk`, and the size of the buffers

`printk` has `vsprintf` write to a static buffer of 1024 bytes and sends the string in it to the
serial port.  `vsprintf` does not know the size of the buffer, so everything is inside if and only
if the fields take at most 1023 bytes (`printk_safe_iff`, with `SprintTakes` for the length of a
format with its arguments).

With `logMessage_safe_iff` this says for both buffers of the kernel when they are large enough
(`buffers_safe_iff`).
-/

namespace AncoreOS.Tools

open ByteMemory Buffer Scanner Munch AncoreOS.Klibc

/-! ### The code -/

/-- The string in the 1024 bytes of `buf`. -/
def bufString (buf : Nat → Char) : List Char :=
  ((List.range 1024).map buf).takeWhile fun c => c ≠ '\x00'

/-- What `vsprintf` leaves in the buffer, and what `serial_write` makes of it. -/
def printk (mem : Mem) (buf : Nat → Char) (fmt : List Char) (args : List Word) :
    Option (Sprinted × List Emit) :=
  (vsprintf mem buf fmt args).map fun r => (r, serialWrite (bufString r.buf))

/-- The call returns, and every assignment to the buffer was inside the 1024 bytes. -/
def PrintkSafe (mem : Mem) (buf : Nat → Char) (fmt : List Char) (args : List Word) : Prop :=
  ∃ r, printk mem buf fmt args = some r ∧ ∀ i ∈ r.1.written, i < 1024

/-! ### The length of a text -/

/-- The bytes that an item takes: its text, and the padding in front of it. -/
def SprintItem.size (mem : Mem) (i : SprintItem) : Nat :=
  match i with
  | .conversion m k arg =>
    ((k.text mem m.length arg).getD []).length +
      padCount (BitVec.ofNat 32 m.width) ((k.text mem m.length arg).getD []).length
  | .unknown m _ _ _ _ => 2 + padCount (BitVec.ofNat 32 m.width) 2
  | _ => 1

/-- A format and its arguments take so many bytes of the buffer. -/
inductive SprintTakes (mem : Mem) : List Char → List Word → Nat → Prop
  | nil {args : List Word} : SprintTakes mem [] args 0
  | item {i : SprintItem} {fmt : List Char} {args : List Word} {n : Nat}
      (htext : (i.text mem).isSome) (hfmt : SprintTakes mem fmt args n) :
      SprintTakes mem (i.format ++ fmt) (i.args ++ args) (i.size mem + n)

section Takes

variable {mem : Mem} {fmt : List Char} {args : List Word} {n : Nat}

theorem SprintItem.field_length (i : SprintItem) : (i.field mem).length = i.size mem := by
  cases i with
  | literal c _ _ => rfl
  | percent => rfl
  | conversion m k arg =>
    rw [SprintItem.field, SprintItem.size, m.widthOf_eq, fieldText, List.length_append,
      List.length_replicate, Nat.add_comm]
  | unknown m c _ _ _ =>
    rw [SprintItem.field, SprintItem.size, m.widthOf_eq, fieldText, List.length_append,
      List.length_replicate, Nat.add_comm]
    rfl

/-- A format with its arguments is a list of items. -/
theorem SprintTakes.exists_items (h : SprintTakes mem fmt args n) :
    ∃ items extra, fmt = sprintFormat items ∧ args = sprintArgs items ++ extra ∧
      (∀ i ∈ items, (i.text mem).isSome) ∧ (fields mem items).length = n := by
  induction h with
  | @nil args => exact ⟨[], args, rfl, rfl, by simp, rfl⟩
  | @item i fmt args n htext _ ih =>
    obtain ⟨items, extra, rfl, rfl, hsome, rfl⟩ := ih
    refine ⟨i :: items, extra, rfl, ?_, ?_, ?_⟩
    · rw [sprintArgs, sprintArgs, List.flatMap_cons, List.append_assoc]
    · intro j hj
      rcases List.mem_cons.mp hj with rfl | hj
      · exact htext
      · exact hsome j hj
    · rw [fields, List.flatMap_cons, List.length_append, i.field_length, fields]

theorem takes_of_items {items : List SprintItem} {extra : List Word}
    (htext : ∀ i ∈ items, (i.text mem).isSome) :
    SprintTakes mem (sprintFormat items) (sprintArgs items ++ extra) (fields mem items).length := by
  induction items with
  | nil => exact .nil
  | cons i items ih =>
    have h := SprintTakes.item (htext i List.mem_cons_self)
      (ih fun j hj => htext j (List.mem_cons_of_mem i hj))
    rw [← i.field_length, ← List.append_assoc] at h
    rwa [fields, List.flatMap_cons, List.length_append]

end Takes

/-! ### Formats and items -/

section Items

variable {mem : Mem} {s s' : Sprint} {w : List Nat}

/-- Every complete format is one of items. -/
theorem exists_items_of_complete {l : List Char} (h : Complete '%' VsprintfWord l)
    (hnull : '\x00' ∉ l) : ∃ items, sprintFormat items = l := by
  induction h with
  | nil => exact ⟨[], rfl⟩
  | @letter a l ha _ ih =>
    rw [List.mem_cons, not_or] at hnull
    obtain ⟨items, rfl⟩ := ih hnull.2
    exact ⟨.literal a ha (Ne.symm hnull.1) :: items, rfl⟩
  | @escape m a l hm hmax _ ih =>
    simp only [List.mem_cons, List.mem_append, not_or] at hnull
    obtain ⟨items, rfl⟩ := ih hnull.2.2.2
    obtain ⟨mods, rfl⟩ := hm
    have hended := endedBy_of_maximal hmax
    by_cases hpercent : mods.Bare → a ≠ '%'
    · by_cases hk : ∃ k : SprintConversion, k.char = a
      · obtain ⟨k, rfl⟩ := hk
        refine ⟨.conversion mods k 0 :: items, ?_⟩
        simp [sprintFormat, SprintItem.format]
      · refine ⟨.unknown mods a hended hpercent (fun k hka => hk ⟨k, hka⟩) :: items, ?_⟩
        simp [sprintFormat, SprintItem.format]
    · obtain ⟨rfl, rfl⟩ := bare_of_percent hpercent
      exact ⟨.percent :: items, rfl⟩

theorem takeArg_eq_some {f : Word → Action Nat Sprint} (h : takeArg f s = some (w, s')) :
    ∃ a args, s.args = a :: args ∧ f a { s with args := args } = some (w, s') := by
  rw [takeArg] at h
  cases hargs : s.args with
  | nil =>
    rw [hargs] at h
    exact absurd h (Option.some_ne_none _).symm
  | cons a args =>
    rw [hargs] at h
    exact ⟨a, args, rfl, h⟩

/-- A conversion that has a result has an argument, and a text for it. -/
theorem exists_arg (len : SprintLength) (k : SprintConversion)
    (h : vsprintfConversion mem len.flags.1 len.flags.2 k.char s = some (w, s')) :
    ∃ a args, s.args = a :: args ∧ (k.text mem len a).isSome := by
  cases k with
  | p =>
    obtain ⟨_, s₁, _, h₁, h, _⟩ := Action.seq_eq_some h
    obtain ⟨_, s₂, _, h₂, h, _⟩ := Action.seq_eq_some h
    obtain ⟨a, args, hargs, _⟩ := takeArg_eq_some h
    have hs₁ := (Prod.mk.inj (Option.some.inj h₁)).2
    have hs₂ := (Prod.mk.inj (Option.some.inj h₂)).2
    refine ⟨a, args, ?_, rfl⟩
    rw [← hargs, ← hs₂, ← hs₁]
  | s =>
    obtain ⟨a, args, hargs, h⟩ := takeArg_eq_some h
    refine ⟨a, args, hargs, ?_⟩
    show (if a = 0 then some "(null)".toList else string mem a).isSome
    cases htext : if a = 0 then some "(null)".toList else string mem a with
    | none =>
      rw [htext] at h
      exact absurd h (Option.some_ne_none _).symm
    | some l => rfl
  | _ =>
    obtain ⟨a, args, hargs, _⟩ := takeArg_eq_some h
    exact ⟨a, args, hargs, rfl⟩

/-- An item that has a result has it with its own argument. -/
theorem SprintItem.exists_args (i : SprintItem) (h : i.act mem s = some (w, s')) :
    ∃ j : SprintItem, j.format = i.format ∧ j.act mem = i.act mem ∧ (j.text mem).isSome ∧
      s.args = j.args ++ s'.args := by
  have hown : ∀ {j : SprintItem} {args : List Word}, j.act mem = i.act mem →
      s.args = j.args ++ args → (j.text mem).isSome → args = s'.args := by
    intro j args hact hargs htext
    obtain ⟨l, hl⟩ := Option.isSome_iff_exists.mp htext
    obtain ⟨t, ⟨w', hrun, _⟩, _, ht, _⟩ := j.act_writes hargs hl
    rw [hact, h] at hrun
    obtain ⟨_, rfl⟩ := Prod.mk.inj (Option.some.inj hrun)
    exact ht.symm
  cases i with
  | conversion m k arg =>
    obtain ⟨_, s₁, _, hconv, _, _⟩ := Action.seq_eq_some h
    obtain ⟨a, args, hargs, htext⟩ := exists_arg m.length k hconv
    refine ⟨.conversion m k a, rfl, rfl, htext, ?_⟩
    rw [← hown (j := .conversion m k a) rfl hargs htext]
    exact hargs
  | literal c h₁ h₂ =>
    refine ⟨.literal c h₁ h₂, rfl, rfl, rfl, ?_⟩
    rw [← hown (j := .literal c h₁ h₂) rfl rfl rfl]
    rfl
  | percent =>
    refine ⟨.percent, rfl, rfl, rfl, ?_⟩
    rw [← hown (j := .percent) rfl rfl rfl]
    rfl
  | unknown m c h₁ h₂ h₃ =>
    refine ⟨.unknown m c h₁ h₂ h₃, rfl, rfl, rfl, ?_⟩
    rw [← hown (j := .unknown m c h₁ h₂ h₃) rfl rfl rfl]
    rfl

theorem run_exists_args {items : List SprintItem}
    (h : run (SprintItem.act mem) items s = some (w, s')) :
    ∃ items', sprintFormat items' = sprintFormat items ∧
      (∀ i ∈ items', (i.text mem).isSome) ∧ s.args = sprintArgs items' ++ s'.args := by
  induction items generalizing s w with
  | nil =>
    obtain ⟨_, rfl⟩ := Prod.mk.inj (Option.some.inj h)
    exact ⟨[], rfl, by simp, rfl⟩
  | cons i items ih =>
    obtain ⟨w₁, s₁, w₂, hi, hitems, _⟩ := Action.seq_eq_some h
    obtain ⟨j, hformat, _, htext, hargs⟩ := i.exists_args hi
    obtain ⟨items', hformats, htexts, hargs'⟩ := ih hitems
    refine ⟨j :: items', ?_, ?_, ?_⟩
    · rw [sprintFormat, sprintFormat, List.flatMap_cons, List.flatMap_cons, hformat]
      exact congrArg (i.format ++ ·) hformats
    · intro t ht
      rcases List.mem_cons.mp ht with rfl | ht
      · exact htext
      · exact htexts t ht
    · rw [hargs, hargs', sprintArgs, sprintArgs, List.flatMap_cons, List.append_assoc]

end Items

/-! ### The 1024 bytes -/

section Safe

variable {mem : Mem} {buf : Nat → Char} {fmt : List Char} {args : List Word}

/-- A format that ends inside an escape has no result. -/
theorem vsprintf_eq_none {l m : List Char} (hl : Complete '%' VsprintfWord l)
    (hnull : '\x00' ∉ l) (hm : VsprintfWord m) :
    vsprintf mem buf (l ++ '%' :: m) args = none := by
  obtain ⟨items, rfl⟩ := exists_items_of_complete hl hnull
  obtain ⟨mods, rfl⟩ := hm
  have hreads : Reads (vsprintfStep mem) (sprintFormat items) (run (SprintItem.act mem) items) :=
    Reads.flatMap fun i _ => i.reads
  have hcut : ∀ n s, scan (vsprintfStep mem) n ('%' :: mods.chars) s = none := by
    intro n s
    cases n with
    | zero => rfl
    | succ n =>
      rw [scan, vsprintfStep_cut]
      rfl
  obtain ⟨n, _, hscan⟩ := hreads ('%' :: mods.chars) _ (List.length_append).ge
  rw [vsprintf, hscan, Action.seq_assoc, Action.seq]
  cases run (SprintItem.act mem) items ⟨buf, 0, args⟩ with
  | none => rfl
  | some r =>
    rw [Option.bind_some, Action.seq, hcut]
    rfl

/-- A call that returns has taken a number of bytes. -/
theorem vsprintf_takes {r : Sprinted} (hnull : '\x00' ∉ fmt)
    (h : vsprintf mem buf fmt args = some r) :
    ∃ n, SprintTakes mem fmt args n ∧ n ∈ r.written := by
  obtain hl | ⟨l, m, hl, hm, rfl⟩ := complete_or_truncated '%' vsprintfWord_nil fmt
  · obtain ⟨items, rfl⟩ := exists_items_of_complete hl hnull
    have hscan : scan (vsprintfStep mem) (sprintFormat items).length (sprintFormat items) =
        run (SprintItem.act mem) items :=
      (Reads.flatMap fun i _ => i.reads).scan_eq
    have hrun := h
    rw [vsprintf, hscan] at hrun
    obtain ⟨⟨w, s'⟩, hseq, _⟩ := Option.map_eq_some_iff.mp hrun
    obtain ⟨w₁, s₁, _, hitems, _, _⟩ := Action.seq_eq_some hseq
    obtain ⟨items', hformat, htext, hargs⟩ := run_exists_args hitems
    obtain rfl : args = sprintArgs items' ++ s₁.args := hargs
    rw [← hformat] at h ⊢
    obtain ⟨r', hr', _, hend, _⟩ := vsprintf_eq buf htext s₁.args
    obtain rfl := Option.some.inj (h.symm.trans hr')
    exact ⟨_, takes_of_items htext, hend⟩
  · rw [List.mem_append, not_or] at hnull
    rw [vsprintf_eq_none hl hnull.1 hm] at h
    exact absurd h (Option.some_ne_none _).symm

theorem SprintTakes.exists_vsprintf {n : Nat} (h : SprintTakes mem fmt args n)
    (buf : Nat → Char) :
    ∃ r, vsprintf mem buf fmt args = some r ∧ n ∈ r.written ∧ ∀ i ∈ r.written, i ≤ n := by
  obtain ⟨items, extra, rfl, rfl, htext, rfl⟩ := h.exists_items
  obtain ⟨r, hr, _, hend, hle, _⟩ := vsprintf_eq buf htext extra
  exact ⟨r, hr, hend, hle⟩

/-- The length is determined by the call, so the buffer can be judged by it. -/
theorem SprintTakes.safe_iff {n : Nat} (h : SprintTakes mem fmt args n) :
    PrintkSafe mem buf fmt args ↔ n < 1024 := by
  obtain ⟨r, hcall, hend, hle⟩ := h.exists_vsprintf buf
  constructor
  · rintro ⟨⟨r', out⟩, hr, hwritten⟩
    rw [printk, hcall] at hr
    obtain ⟨rfl, _⟩ := Prod.mk.inj (Option.some.inj hr)
    exact hwritten n hend
  · intro hlt
    refine ⟨_, by rw [printk, hcall]; rfl, fun i hi => ?_⟩
    exact (hle i hi).trans_lt hlt

theorem printk_safe_iff (hnull : '\x00' ∉ fmt) :
    PrintkSafe mem buf fmt args ↔ ∃ n, SprintTakes mem fmt args n ∧ n < 1024 := by
  constructor
  · rintro ⟨⟨r, out⟩, hr, hwritten⟩
    obtain ⟨r', hcall, heq⟩ := Option.map_eq_some_iff.mp hr
    obtain ⟨rfl, _⟩ := Prod.mk.inj heq
    obtain ⟨n, hn, hend⟩ := vsprintf_takes hnull hcall
    exact ⟨n, hn, hwritten n hend⟩
  · rintro ⟨n, hn, hlt⟩
    exact hn.safe_iff.mpr hlt

end Safe

/-! ### Both buffers -/

/-- **When the buffers of `log_to_terminal` and `printk` are large enough.** -/
theorem buffers_safe_iff (mem : Mem) (buf : Nat → Char) (globalFlanterm : Bool) (call : LogCall)
    (fmt : List Char) (args : List Word) (hnull : '\x00' ∉ fmt) :
    (LogSafe globalFlanterm mem buf call fmt args ↔
        (globalFlanterm = true →
          ∃ n, LogTakes mem fmt args n ∧ logHeaderSize call + n < 1024)) ∧
      (PrintkSafe mem buf fmt args ↔ ∃ n, SprintTakes mem fmt args n ∧ n < 1024) :=
  ⟨logMessage_safe_iff globalFlanterm, printk_safe_iff hnull⟩

/-- The call for `log_to_terminal(Info, NULL, NULL, 0, ..)`, as the machine starts. -/
def exampleInfo : LogCall := ⟨0, .info, none, none, 0⟩

/-- `on` takes two bytes of each buffer. -/
theorem buffers_safe_on :
    LogSafe true (fun _ => 0) (fun _ => 'z') exampleInfo "on".toList [] ∧
      PrintkSafe (fun _ => 0) (fun _ => 'z') "on".toList [] := by
  have hlog : LogTakes (fun _ => 0) "on".toList [] 2 :=
    .literal (by decide) (.literal (by decide) .nil)
  have hprintk : SprintTakes (fun _ => 0) "on".toList [] 2 :=
    .item (i := .literal 'o' (by decide) (by decide)) rfl
      (.item (i := .literal 'n' (by decide) (by decide)) rfl .nil)
  obtain ⟨hlogSafe, hprintkSafe⟩ :=
    buffers_safe_iff (fun _ => 0) (fun _ => 'z') true exampleInfo "on".toList [] (by decide)
  exact ⟨hlogSafe.mpr fun _ => ⟨2, hlog, by decide⟩, hprintkSafe.mpr ⟨2, hprintk, by decide⟩⟩

/-- Letters take one byte each. -/
theorem takes_replicate (mem : Mem) {c : Char} (hpercent : c ≠ '%') (hnull : c ≠ '\x00') (n : Nat) :
    LogTakes mem (List.replicate n c) [] n ∧ SprintTakes mem (List.replicate n c) [] n := by
  induction n with
  | zero => exact ⟨.nil, .nil⟩
  | succ n ih =>
    obtain ⟨hlog, hprintk⟩ := ih
    rw [List.replicate_succ, Nat.add_comm]
    exact ⟨.literal hpercent hlog, .item (i := .literal c hpercent hnull) rfl hprintk⟩

/-- 1024 letters, and neither buffer has room for the null character. -/
theorem letters_not_safe :
    ¬ LogSafe true (fun _ => 0) (fun _ => 'z') exampleInfo (List.replicate 1024 'a') [] ∧
      ¬ PrintkSafe (fun _ => 0) (fun _ => 'z') (List.replicate 1024 'a') [] := by
  obtain ⟨hlog, hprintk⟩ := takes_replicate (fun _ => 0) a_ne_percent a_ne_null 1024
  rw [hlog.safe_iff, hprintk.safe_iff]
  exact ⟨fun h => absurd (h rfl) (by omega), by omega⟩

end AncoreOS.Tools
