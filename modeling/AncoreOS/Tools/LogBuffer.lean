import AncoreOS.Klibc.SprintFields
import AncoreOS.Tools.LogInfo

/-!
# The buffer of `log_to_terminal`

`LogInfo.lean` says what a message is.  Here is how it is put together, assignment by assignment, in
a buffer without end, with the offsets that are written.  Both come to the same (`logMessage_eq`):
the characters of the message and a null character, one behind the other.

So the 1024 bytes of `message` are enough if and only if header and text take at most 1023
(`logMessage_safe_iff`), where the text is measured format character by format character
(`LogTakes`).
-/

namespace AncoreOS.Tools

open ByteMemory Buffer Scanner AncoreOS.Klibc

/-! ### The code -/

/-- `strcpy_advance`. -/
def strcpyAdvance (src : List Char) : Action Nat Sprint := run putChar src

/-- The header of the message. -/
def logPrefix (call : LogCall) : Action Nat Sprint :=
  let secs : BitVec 32 := (call.ms / 1000).setWidth 32
  let msecs : BitVec 32 := (call.ms % 1000).setWidth 32
  run id [putChar '[',
    if secs < 10 then (putChar ' ').seq (putChar ' ')
      else if secs < 100 then putChar ' ' else Action.skip,
    strcpyAdvance (itoa secs 10),
    putChar '.',
    if msecs < 100 then putChar '0' else Action.skip,
    if msecs < 10 then putChar '0' else Action.skip,
    strcpyAdvance (itoa msecs 10),
    putChar ']',
    putChar ' ',
    strcpyAdvance (getStatusColor call.status),
    strcpyAdvance (resultStr call.status),
    if call.status ≠ .info then strcpyAdvance colorReset else Action.skip,
    strcpyAdvance colorDim,
    putChar '[',
    strcpyAdvance (call.origin.getD "<unknown>".toList),
    strcpyAdvance " in ".toList,
    strcpyAdvance (lastSlash (call.file.getD "<unknown>".toList)),
    putChar ':',
    strcpyAdvance (itoa call.line 10),
    putChar ']',
    strcpyAdvance colorReset,
    putChar ' ']

/-- What follows a `%`. -/
def logPutConversion (mem : Mem) (c : Char) : Action Nat Sprint :=
  match c with
  | 'd' => takeArg fun a => strcpyAdvance (itoa (a.setWidth 32) 10)
  | 'i' => takeArg fun a => strcpyAdvance (itoa (a.setWidth 32) 10)
  | 'u' => takeArg fun a => strcpyAdvance (itoa (a.setWidth 32) 10)
  | 's' => takeArg fun a =>
    if a = 0 then Action.skip
    else
      match string mem a with
      | none => fun _ => none
      | some s => strcpyAdvance s
  | 'p' => takeArg fun a =>
    (putChar '0').seq ((putChar 'x').seq (strcpyAdvance (itoa (a.setWidth 32) 16)))
  | 'x' => takeArg fun a =>
    (putChar '0').seq ((putChar 'x').seq (strcpyAdvance (itoa (a.setWidth 32) 16)))
  | '%' => putChar '%'
  | c => (putChar '%').seq (putChar c)

/-- One round of the loop.  The null character behind a `%` is copied, and `fmt` stays at it. -/
def logPutStep (mem : Mem) : Step Char Nat Sprint := fun c fmt s =>
  if c = '%' then
    match fmt with
    | [] => (((putChar '%').seq (putChar '\x00')) s).map fun r => (r.1, [], r.2)
    | c :: fmt => (logPutConversion mem c s).map fun r => (r.1, fmt, r.2)
  else (putChar c s).map fun r => (r.1, fmt, r.2)

/-- The message in the buffer, from the first assignment to the null character, and the length
that `flanterm_write` is given. -/
def logMessage (mem : Mem) (buf : Nat → Char) (call : LogCall) (fmt : List Char)
    (args : List Word) : Option Sprinted :=
  (((logPrefix call).seq ((scan (logPutStep mem) fmt.length fmt).seq fun s =>
    setChar s.str '\x00' s)) ⟨buf, 0, args⟩).map fun r => ⟨r.2.str, r.2.buf, r.1⟩

/-! ### What is put is what is printed -/

/-- An action on the buffer that puts there what another one prints. -/
def Puts (f : Action Nat Sprint) (g : Action Emit (List Word)) : Prop :=
  ∀ s, f s = (g s.args).map fun r =>
    (List.range' s.str r.1.length, { s with args := r.2 }.append (charsOf r.1))

@[simp] theorem charsOf_length (out : List Emit) : (charsOf out).length = out.length :=
  List.length_map _

theorem charsOf_append (out out' : List Emit) :
    charsOf (out ++ out') = charsOf out ++ charsOf out' :=
  List.map_append

section Puts

variable {f f' : Action Nat Sprint} {g g' : Action Emit (List Word)}

theorem Puts.skip : Puts Action.skip Action.skip := by
  intro s
  simp [Action.skip, charsOf]

theorem Puts.seq (h : Puts f g) (h' : Puts f' g') : Puts (f.seq f') (g.seq g') := by
  intro s
  rw [Action.seq, Action.seq, h s]
  cases g s.args with
  | none => rfl
  | some r =>
    simp only [Option.map_some, Option.bind_some, h' _, Sprint.append_args]
    cases g' r.2 with
    | none => rfl
    | some q =>
      simp only [Option.map_some, Option.some.injEq, Prod.mk.injEq]
      refine ⟨?_, ?_⟩
      · rw [Sprint.append_str, charsOf_length, List.length_append, List.range'_append_1]
      · rw [charsOf_append, ← Sprint.append_append]
        rfl

theorem puts_char {e : Emit} : Puts (putChar (emitChar e)) (print [e]) := by
  intro s
  rw [putChar, ← writeAt_singleton]
  rfl

theorem puts_string (mark : Char → Emit) (hmark : ∀ c, emitChar (mark c) = c) (l : List Char) :
    Puts (strcpyAdvance l) (print (l.map mark)) := by
  induction l with
  | nil => exact .skip
  | cons c l ih =>
    have hc : Puts (putChar c) (print [mark c]) := by
      have h := puts_char (e := mark c)
      rwa [hmark] at h
    have h := hc.seq ih
    exact h

theorem puts_takeArg {f : Word → Action Nat Sprint} {g : Word → Option (List Emit)}
    (h : ∀ a, Puts (f a) fun args => (g a).map fun out => (out, args)) :
    Puts (takeArg f) (vaArg g) := by
  intro s
  rw [takeArg]
  cases hargs : s.args with
  | nil => rfl
  | cons a args =>
    show f a { s with args := args } = _
    rw [h a]
    rfl

end Puts

/-- Parts of the header, one behind the other. -/
theorem puts_run {fs : List (Action Nat Sprint)} {ls : List (List Char)}
    (h : List.Forall₂ (fun f l => Puts f (print (l.map .header))) fs ls) :
    Puts (run id fs) (print (ls.flatten.map .header)) := by
  induction h with
  | nil => exact .skip
  | cons hf _ ih =>
    rw [List.flatten_cons, List.map_append]
    exact hf.seq ih

theorem puts_ite {p : Prop} [Decidable p] {f f' : Action Nat Sprint} {l l' : List Char}
    (h : Puts f (print (l.map .header))) (h' : Puts f' (print (l'.map .header))) :
    Puts (if p then f else f') (print ((if p then l else l').map .header)) := by
  by_cases hp : p
  · rwa [if_pos hp, if_pos hp]
  · rwa [if_neg hp, if_neg hp]

/-- The parts of the header, in the order in which they are put. -/
def logParts (call : LogCall) : List (List Char) :=
  let secs : BitVec 32 := (call.ms / 1000).setWidth 32
  let msecs : BitVec 32 := (call.ms % 1000).setWidth 32
  [['['], if secs < 10 then [' ', ' '] else if secs < 100 then [' '] else [], itoa secs 10, ['.'],
    if msecs < 100 then ['0'] else [], if msecs < 10 then ['0'] else [], itoa msecs 10, [']'], [' '],
    getStatusColor call.status, resultStr call.status,
    if call.status ≠ .info then colorReset else [], colorDim, ['['],
    call.origin.getD "<unknown>".toList, " in ".toList,
    lastSlash (call.file.getD "<unknown>".toList), [':'], itoa call.line 10, [']'], colorReset, [' ']]

theorem logHeader_eq (call : LogCall) : logHeader call = (logParts call).flatten := by
  unfold logHeader logParts
  simp only [List.flatten_cons, List.flatten_nil, List.append_assoc, List.append_nil]
  generalize (call.ms / 1000).setWidth 32 = secs
  generalize (call.ms % 1000).setWidth 32 = msecs
  generalize getStatusColor call.status ++ _ = rest
  rfl

theorem puts_logHeader (call : LogCall) :
    Puts (logPrefix call) (print ((logHeader call).map .header)) := by
  have hchar : ∀ c, Puts (putChar c) (print ([c].map .header)) :=
    fun c => puts_char (e := .header c)
  have hstring : ∀ l, Puts (strcpyAdvance l) (print (l.map .header)) :=
    puts_string .header fun _ => rfl
  have hskip : Puts Action.skip (print (([] : List Char).map .header)) := .skip
  have htwo : Puts ((putChar ' ').seq (putChar ' ')) (print ([' ', ' '].map .header)) :=
    (hchar ' ').seq (hchar ' ')
  have hsecs : Puts _ _ := puts_ite (p := (call.ms / 1000).setWidth 32 < 10#32) htwo
    (puts_ite (p := (call.ms / 1000).setWidth 32 < 100#32) (hchar ' ') hskip)
  have hhundred : Puts _ _ :=
    puts_ite (p := (call.ms % 1000).setWidth 32 < 100#32) (hchar '0') hskip
  have hten : Puts _ _ := puts_ite (p := (call.ms % 1000).setWidth 32 < 10#32) (hchar '0') hskip
  have hreset : Puts _ _ := puts_ite (p := call.status ≠ .info) (hstring colorReset) hskip
  have hrun := puts_run (.cons (hchar '[') (.cons hsecs
    (.cons (hstring (itoa ((call.ms / 1000).setWidth 32) 10)) (.cons (hchar '.')
    (.cons hhundred (.cons hten (.cons (hstring (itoa ((call.ms % 1000).setWidth 32) 10))
    (.cons (hchar ']') (.cons (hchar ' ') (.cons (hstring (getStatusColor call.status))
    (.cons (hstring (resultStr call.status)) (.cons hreset (.cons (hstring colorDim)
    (.cons (hchar '[') (.cons (hstring (call.origin.getD "<unknown>".toList))
    (.cons (hstring " in ".toList)
    (.cons (hstring (lastSlash (call.file.getD "<unknown>".toList))) (.cons (hchar ':')
    (.cons (hstring (itoa call.line 10)) (.cons (hchar ']') (.cons (hstring colorReset)
    (.cons (hchar ' ') .nil))))))))))))))))))))))
  rw [logHeader_eq]
  exact hrun

/-- A character that `log_to_terminal` does not know is copied with its `%`. -/
theorem logConversion_other (mem : Mem) {c : Char}
    (hc : c ∉ ['d', 'i', 'u', 's', 'p', 'x', '%']) :
    logConversion mem c = print [.text '%', .text c] := by
  unfold logConversion
  split
  all_goals first
    | exact absurd (by decide) hc
    | rfl

theorem puts_conversion (mem : Mem) (c : Char) :
    Puts (logPutConversion mem c) (logConversion mem c) := by
  have htext : ∀ l : List Char, Puts (strcpyAdvance l) (print (l.map .text)) :=
    puts_string .text fun _ => rfl
  have hnumber : ∀ base, Puts (takeArg fun a => strcpyAdvance (itoa (a.setWidth 32) base))
      (vaArg fun a => some ((itoa (a.setWidth 32) base).map .text)) :=
    fun base => puts_takeArg fun a => htext _
  have hhex : Puts (takeArg fun a =>
        (putChar '0').seq ((putChar 'x').seq (strcpyAdvance (itoa (a.setWidth 32) 16))))
      (vaArg fun a => some (zeroX ++ (itoa (a.setWidth 32) 16).map .text)) :=
    puts_takeArg fun a => (puts_char (e := .hexPrefix '0')).seq
      ((puts_char (e := .hexPrefix 'x')).seq (htext _))
  unfold logPutConversion
  split
  · exact hnumber 10
  · exact hnumber 10
  · exact hnumber 10
  · refine puts_takeArg fun a => ?_
    by_cases ha : a = 0
    · simp only [ha, if_true]
      exact .skip
    · simp only [ha, if_false]
      cases hs : string mem a with
      | none => exact fun _ => rfl
      | some l => exact htext l
  · exact hhex
  · exact hhex
  · exact puts_char (e := .text '%')
  · have hother : c ∉ ['d', 'i', 'u', 's', 'p', 'x', '%'] := by
      intro hc
      simp only [List.mem_cons, List.not_mem_nil, or_false] at hc
      rcases hc with rfl | rfl | rfl | rfl | rfl | rfl | rfl <;> contradiction
    rw [logConversion_other mem hother]
    exact (puts_char (e := .text '%')).seq (puts_char (e := .text c))

/-- One round on the buffer and one round of the printer. -/
theorem logPutStep_eq (mem : Mem) (c : Char) (fmt : List Char) (s : Sprint) :
    logPutStep mem c fmt s = (logStep mem c fmt s.args).map fun r =>
      (List.range' s.str r.1.length, r.2.1, { s with args := r.2.2 }.append (charsOf r.1)) := by
  unfold logPutStep logStep
  by_cases hc : c = '%'
  · rw [if_pos hc, if_pos hc]
    cases fmt with
    | nil =>
      have h := (puts_char (e := .text '%')).seq (puts_char (e := .text '\x00')) s
      simp only [emitChar] at h
      simp only [h]
      rfl
    | cons c fmt =>
      simp only [puts_conversion mem c s, Option.map_map]
      rfl
  · rw [if_neg hc, if_neg hc]
    simp only [show putChar c s = _ from puts_char (e := .text c) s]
    rfl

theorem puts_scan (mem : Mem) (n : Nat) (fmt : List Char) :
    Puts (scan (logPutStep mem) n fmt) (scan (logStep mem) n fmt) := by
  induction n generalizing fmt with
  | zero =>
    cases fmt with
    | nil => exact .skip
    | cons c fmt => exact fun _ => rfl
  | succ n ih =>
    cases fmt with
    | nil => exact .skip
    | cons c fmt =>
      intro s
      rw [scan, scan, logPutStep_eq]
      cases logStep mem c fmt s.args with
      | none => rfl
      | some r =>
        simp only [Option.map_some, Option.bind_some, ih r.2.1 _, Sprint.append_args]
        cases scan (logStep mem) n r.2.1 r.2.2 with
        | none => rfl
        | some q =>
          simp only [Option.map_some, Option.some.injEq, Prod.mk.injEq]
          refine ⟨?_, ?_⟩
          · rw [Sprint.append_str, charsOf_length, List.length_append, List.range'_append_1]
          · rw [charsOf_append, ← Sprint.append_append]
            rfl

/-- The message is put into the buffer, character by character. -/
theorem logMessage_eq (mem : Mem) (buf : Nat → Char) (call : LogCall) (fmt : List Char)
    (args : List Word) :
    logMessage mem buf call fmt args = (scan (logStep mem) fmt.length fmt args).map fun r =>
      ⟨((logHeader call).map Emit.header ++ r.1).length,
        writeAt buf 0 (charsOf ((logHeader call).map Emit.header ++ r.1) ++ ['\x00']),
        List.range' 0 (((logHeader call).map Emit.header ++ r.1).length + 1)⟩ := by
  have hputs := (puts_logHeader call).seq (puts_scan mem fmt.length fmt)
  have hseq := hputs ⟨buf, 0, args⟩
  unfold logMessage
  rw [← Action.seq_assoc, Action.seq, hseq]
  simp only [Action.seq, print, Option.bind_some]
  cases scan (logStep mem) fmt.length fmt args with
  | none => rfl
  | some r =>
    have hend := update_writeAt buf 0 (charsOf ((logHeader call).map Emit.header ++ r.1)) '\x00'
    rw [charsOf_length, Nat.zero_add] at hend
    simp only [Option.map_some, Option.bind_some, setChar, Sprint.append, charsOf_length,
      Nat.zero_add, hend, List.range'_1_concat]

/-! ### The length of a message -/

/-- What follows a `%` takes so many bytes, and the arguments that are left. -/
inductive EscapeTakes (mem : Mem) : Char → List Word → List Word → Nat → Prop
  | number {c : Char} {a : Word} {args : List Word} (hc : c ∈ ['d', 'i', 'u']) :
      EscapeTakes mem c (a :: args) args (signedNumeral (a.setWidth 32).toInt).length
  | null {args : List Word} : EscapeTakes mem 's' (0 :: args) args 0
  | string {a : Word} {args : List Word} {s : List Char} (ha : a ≠ 0) (hs : string mem a = some s) :
      EscapeTakes mem 's' (a :: args) args s.length
  | hex {c : Char} {a : Word} {args : List Word} (hc : c ∈ ['p', 'x']) :
      EscapeTakes mem c (a :: args) args (2 + (numeral 16 (a.toNat % 2 ^ 32)).length)
  | percent {args : List Word} : EscapeTakes mem '%' args args 1
  | other {c : Char} {args : List Word} (hc : c ∉ ['d', 'i', 'u', 's', 'p', 'x', '%']) :
      EscapeTakes mem c args args 2

/-- A format and its arguments take so many bytes of the buffer. -/
inductive LogTakes (mem : Mem) : List Char → List Word → Nat → Prop
  | nil {args : List Word} : LogTakes mem [] args 0
  | last {args : List Word} : LogTakes mem ['%'] args 2
  | literal {c : Char} {fmt : List Char} {args : List Word} {n : Nat} (hc : c ≠ '%')
      (hfmt : LogTakes mem fmt args n) : LogTakes mem (c :: fmt) args (1 + n)
  | escape {c : Char} {fmt : List Char} {args args' : List Word} {k n : Nat}
      (hc : EscapeTakes mem c args args' k) (hfmt : LogTakes mem fmt args' n) :
      LogTakes mem ('%' :: c :: fmt) args (k + n)

/-- The bytes that the header takes. -/
def logHeaderSize (call : LogCall) : Nat := ((logParts call).map List.length).sum

theorem logHeader_length (call : LogCall) : (logHeader call).length = logHeaderSize call := by
  rw [logHeader_eq, List.length_flatten, logHeaderSize]

section Length

variable {mem : Mem} {c : Char} {fmt : List Char} {args args' : List Word}

theorem vaArg_eq_some {f : Word → Option (List Emit)} {out : List Emit}
    (h : vaArg f args = some (out, args')) : ∃ a, args = a :: args' ∧ f a = some out := by
  cases args with
  | nil => exact absurd h (Option.some_ne_none _).symm
  | cons a args =>
    obtain ⟨out', hf, heq⟩ := Option.map_eq_some_iff.mp h
    obtain ⟨rfl, rfl⟩ := Prod.mk.inj heq
    exact ⟨a, rfl, hf⟩

theorem logConversion_takes {out : List Emit} (h : logConversion mem c args = some (out, args')) :
    EscapeTakes mem c args args' out.length := by
  have hnumber : ∀ c ∈ ['d', 'i', 'u'],
      vaArg (fun a => some ((itoa (a.setWidth 32) 10).map .text)) args = some (out, args') →
        EscapeTakes mem c args args' out.length := by
    intro c hc h
    obtain ⟨a, rfl, hout⟩ := vaArg_eq_some h
    rw [← Option.some.inj hout, List.length_map, itoa_signed]
    exact .number hc
  have hhex : ∀ c ∈ ['p', 'x'],
      vaArg (fun a => some (zeroX ++ (itoa (a.setWidth 32) 16).map .text)) args =
        some (out, args') → EscapeTakes mem c args args' out.length := by
    intro c hc h
    obtain ⟨a, rfl, hout⟩ := vaArg_eq_some h
    rw [← Option.some.inj hout, List.length_append, List.length_map, itoa_hex,
      BitVec.toNat_setWidth]
    exact .hex hc
  unfold logConversion at h
  split at h
  · exact hnumber 'd' (by decide) h
  · exact hnumber 'i' (by decide) h
  · exact hnumber 'u' (by decide) h
  · obtain ⟨a, rfl, hout⟩ := vaArg_eq_some h
    by_cases ha : a = 0
    · subst ha
      rw [← Option.some.inj hout]
      exact .null
    · rw [if_neg ha] at hout
      obtain ⟨s, hs, rfl⟩ := Option.map_eq_some_iff.mp hout
      rw [List.length_map]
      exact .string ha hs
  · exact hhex 'p' (by decide) h
  · exact hhex 'x' (by decide) h
  · obtain ⟨rfl, rfl⟩ := Prod.mk.inj (Option.some.inj h)
    exact .percent
  · obtain ⟨rfl, rfl⟩ := Prod.mk.inj (Option.some.inj h)
    refine .other fun hc => ?_
    simp only [List.mem_cons, List.not_mem_nil, or_false] at hc
    rcases hc with rfl | rfl | rfl | rfl | rfl | rfl | rfl <;> contradiction

theorem EscapeTakes.exists_out {k : Nat} (h : EscapeTakes mem c args args' k) :
    ∃ out, logConversion mem c args = some (out, args') ∧ out.length = k := by
  cases h with
  | number hc =>
    rw [← itoa_signed]
    simp only [List.mem_cons, List.not_mem_nil, or_false] at hc
    rcases hc with rfl | rfl | rfl <;> exact ⟨_, rfl, List.length_map _⟩
  | null => exact ⟨[], rfl, rfl⟩
  | @string a args s ha hs =>
    refine ⟨s.map .text, ?_, List.length_map _⟩
    show (if a = 0 then some [] else (Klibc.string mem a).map fun s => s.map Emit.text).map
      (fun out => (out, args')) = some (s.map Emit.text, args')
    rw [if_neg ha, hs]
    rfl
  | @hex c a args hc =>
    have hlength : (zeroX ++ (itoa (a.setWidth 32) 16).map Emit.text).length =
        2 + (numeral 16 (a.toNat % 2 ^ 32)).length := by
      rw [List.length_append, List.length_map, itoa_hex, BitVec.toNat_setWidth]
      rfl
    simp only [List.mem_cons, List.not_mem_nil, or_false] at hc
    rcases hc with rfl | rfl <;> exact ⟨_, rfl, hlength⟩
  | percent => exact ⟨[.text '%'], rfl, rfl⟩
  | @other c args hc =>
    refine ⟨[.text '%', .text c], ?_, rfl⟩
    rw [logConversion_other mem hc]
    rfl

/-- The length of what is printed. -/
theorem scan_takes {n : Nat} {out : List Emit}
    (h : scan (logStep mem) n fmt args = some (out, args')) : LogTakes mem fmt args out.length := by
  induction n generalizing fmt args out with
  | zero =>
    cases fmt with
    | nil =>
      obtain ⟨rfl, _⟩ := Prod.mk.inj (Option.some.inj h)
      exact .nil
    | cons c fmt => exact absurd h (Option.some_ne_none _).symm
  | succ n ih =>
    cases fmt with
    | nil =>
      obtain ⟨rfl, _⟩ := Prod.mk.inj (Option.some.inj h)
      exact .nil
    | cons c fmt =>
      rw [scan] at h
      obtain ⟨⟨o, l, args₁⟩, hstep, h⟩ := Option.bind_eq_some_iff.mp h
      obtain ⟨⟨o', args₂⟩, hscan, heq⟩ := Option.map_eq_some_iff.mp h
      obtain ⟨rfl, rfl⟩ := Prod.mk.inj heq
      have hrest := ih hscan
      rw [List.length_append]
      unfold logStep at hstep
      by_cases hc : c = '%'
      · rw [if_pos hc] at hstep
        subst hc
        cases fmt with
        | nil =>
          obtain ⟨rfl, rfl, rfl⟩ : [Emit.text '%', .text '\x00'] = o ∧ [] = l ∧ args = args₁ := by
            simpa using hstep
          rw [scan_nil] at hscan
          obtain ⟨rfl, _⟩ := Prod.mk.inj (Option.some.inj hscan)
          exact .last
        | cons c fmt =>
          obtain ⟨⟨o₁, args₃⟩, hconv, heq⟩ := Option.map_eq_some_iff.mp hstep
          obtain ⟨rfl, rfl, rfl⟩ : o₁ = o ∧ fmt = l ∧ args₃ = args₁ := by simpa using heq
          exact .escape (logConversion_takes hconv) hrest
      · rw [if_neg hc] at hstep
        obtain ⟨rfl, rfl, rfl⟩ : [Emit.text c] = o ∧ fmt = l ∧ args = args₁ := by simpa using hstep
        exact .literal hc hrest

theorem LogTakes.exists_scan {k : Nat} (h : LogTakes mem fmt args k) {n : Nat}
    (hn : fmt.length ≤ n) :
    ∃ out args', scan (logStep mem) n fmt args = some (out, args') ∧ out.length = k := by
  induction h generalizing n with
  | @nil args => exact ⟨[], args, by rw [scan_nil]; rfl, rfl⟩
  | @last args =>
    obtain ⟨n, rfl⟩ := Nat.exists_eq_add_of_le' (show 1 ≤ n from hn)
    refine ⟨[.text '%', .text '\x00'], args, ?_, rfl⟩
    have hstep : logStep mem '%' [] args = some ([.text '%', .text '\x00'], [], args) := rfl
    rw [scan, hstep, Option.bind_some, scan_nil]
    rfl
  | @literal c fmt args k hc _ ih =>
    obtain ⟨n, rfl⟩ := Nat.exists_eq_add_of_le' (Nat.le_trans (Nat.le_add_left 1 _) hn)
    obtain ⟨out, args', hscan, hlength⟩ := ih (n := n) (by simpa using hn)
    refine ⟨.text c :: out, args', ?_, by rw [List.length_cons, hlength, Nat.add_comm]⟩
    have hstep : logStep mem c fmt args = some ([.text c], fmt, args) := by
      unfold logStep
      rw [if_neg hc]
    rw [scan, hstep, Option.bind_some, hscan]
    rfl
  | @escape c fmt args args' k m hc _ ih =>
    obtain ⟨n, rfl⟩ := Nat.exists_eq_add_of_le' (Nat.le_trans (Nat.le_add_left 1 _) hn)
    obtain ⟨o, hconv, ho⟩ := hc.exists_out
    obtain ⟨out, args'', hscan, hlength⟩ := ih (n := n) (by simp at hn; omega)
    refine ⟨o ++ out, args'', ?_, by rw [List.length_append, ho, hlength]⟩
    have hstep : logStep mem '%' (c :: fmt) args = some (o, fmt, args') := by
      show (logConversion mem c args).map _ = _
      rw [hconv]
      rfl
    rw [scan, hstep, Option.bind_some, hscan]
    rfl

end Length

/-! ### The 1024 bytes -/

/-- The message is finished, and every assignment to it was inside the 1024 bytes. -/
def LogSafe (globalFlanterm : Bool) (mem : Mem) (buf : Nat → Char) (call : LogCall)
    (fmt : List Char) (args : List Word) : Prop :=
  globalFlanterm = true →
    ∃ r, logMessage mem buf call fmt args = some r ∧ ∀ i ∈ r.written, i < 1024

section Safe

variable {mem : Mem} {buf : Nat → Char} {call : LogCall} {fmt : List Char} {args : List Word}

/-- The length is determined by the call, so the buffer can be judged by it. -/
theorem LogTakes.safe_iff {n : Nat} (h : LogTakes mem fmt args n) {globalFlanterm : Bool} :
    LogSafe globalFlanterm mem buf call fmt args ↔
      (globalFlanterm = true → logHeaderSize call + n < 1024) := by
  refine imp_congr_right fun _ => ?_
  obtain ⟨out, args', hscan, rfl⟩ := h.exists_scan le_rfl
  have hcall := logMessage_eq mem buf call fmt args
  rw [hscan, Option.map_some] at hcall
  constructor
  · rintro ⟨r, hr, hwritten⟩
    rw [hcall] at hr
    obtain rfl := Option.some.inj hr
    simp only [List.length_append, List.length_map, logHeader_length, List.mem_range'_1] at hwritten
    exact hwritten _ ⟨Nat.zero_le _, by omega⟩
  · intro hlt
    refine ⟨_, hcall, fun i hi => ?_⟩
    simp only [List.length_append, List.length_map, logHeader_length, List.mem_range'_1] at hi
    omega

theorem logMessage_safe_iff (globalFlanterm : Bool) :
    LogSafe globalFlanterm mem buf call fmt args ↔
      (globalFlanterm = true →
        ∃ n, LogTakes mem fmt args n ∧ logHeaderSize call + n < 1024) := by
  constructor
  · intro h hset
    obtain ⟨r, hr, _⟩ := h hset
    rw [logMessage_eq] at hr
    obtain ⟨⟨out, args'⟩, hscan, _⟩ := Option.map_eq_some_iff.mp hr
    exact ⟨out.length, scan_takes hscan, (scan_takes hscan).safe_iff.mp h hset⟩
  · intro h hset
    obtain ⟨n, hn, hlt⟩ := h hset
    exact hn.safe_iff.mpr (fun _ => hlt) hset

/-- The model of the message has a result exactly when the buffer is large enough. -/
theorem logToTerminal_isSome_iff (globalFlanterm : Bool) :
    (logToTerminal globalFlanterm mem call fmt args).isSome ↔
      LogSafe globalFlanterm mem buf call fmt args := by
  cases globalFlanterm with
  | false => exact iff_of_true rfl fun h => absurd h (by decide)
  | true =>
    rw [logToTerminal, if_pos rfl, LogSafe, logMessage_eq]
    generalize (logHeader call).map Emit.header = header
    cases scan (logStep mem) fmt.length fmt args with
    | none =>
      refine iff_of_false Bool.false_ne_true fun h => ?_
      obtain ⟨_, hr, _⟩ := h rfl
      exact Option.some_ne_none _ hr.symm
    | some r =>
      simp only [Option.bind_some, Option.map_some]
      by_cases hlt : (header ++ r.1).length < 1024
      · rw [if_pos hlt]
        refine iff_of_true rfl fun _ => ⟨_, rfl, fun i hi => ?_⟩
        rw [List.mem_range'_1] at hi
        omega
      · rw [if_neg hlt]
        refine iff_of_false Bool.false_ne_true fun h => ?_
        obtain ⟨_, hr, hwritten⟩ := h trivial
        obtain rfl := Option.some.inj hr
        exact hlt (hwritten _ (List.mem_range'_1.mpr ⟨Nat.zero_le _, by omega⟩))

end Safe

end AncoreOS.Tools
