import AncoreOS.Klibc.Stdio

/-!
# `log_to_terminal`

The printer of `tools/log-info.c`.  A message is put together in a buffer of 1024 bytes: a
header with the time, the status and the place of the call, then the format.  Of the format
it knows the plain conversions `%d`, `%i`, `%u`, `%s`, `%p`, `%x` and `%%`, and copies
everything else.  A message that does not fit is written behind the buffer, so there is no
result for it.
-/

namespace AncoreOS.Tools

open ByteMemory Scanner AncoreOS.Klibc

/-- `result_t`. -/
inductive Result
  | ok
  | info
  | warn
  | fatal
  deriving DecidableEq, Repr

def colorReset : List Char := "\x1b[0m".toList
def colorDim : List Char := "\x1b[2m".toList

def resultStr : Result → List Char
  | .ok => "OK: ".toList
  | .info => "INFO: ".toList
  | .warn => "WARN: ".toList
  | .fatal => "FATAL: ".toList

def getStatusColor : Result → List Char
  | .ok => "\x1b[32m".toList
  | .info => "\x1b[1m".toList
  | .warn => "\x1b[33m".toList
  | .fatal => "\x1b[31m".toList

/-- The arguments in front of the format, and the time of the call.  A missing name is a null
pointer. -/
structure LogCall where
  ms : Word
  status : Result
  origin : Option (List Char)
  file : Option (List Char)
  line : BitVec 32

/-- What follows the last slash. -/
def lastSlash (file : List Char) : List Char :=
  (file.reverse.takeWhile fun c => c ≠ '/' ∧ c ≠ '\\').reverse

def logHeader (call : LogCall) : List Char :=
  let secs : BitVec 32 := (call.ms / 1000).setWidth 32
  let msecs : BitVec 32 := (call.ms % 1000).setWidth 32
  ['['] ++ (if secs < 10 then [' ', ' '] else if secs < 100 then [' '] else []) ++ itoa secs 10 ++
    ['.'] ++ (if msecs < 100 then ['0'] else []) ++ (if msecs < 10 then ['0'] else []) ++
    itoa msecs 10 ++ [']', ' '] ++ getStatusColor call.status ++ resultStr call.status ++
    (if call.status ≠ .info then colorReset else []) ++ colorDim ++ ['['] ++
    call.origin.getD "<unknown>".toList ++ " in ".toList ++
    lastSlash (call.file.getD "<unknown>".toList) ++ [':'] ++ itoa call.line 10 ++ [']'] ++
    colorReset ++ [' ']

/-- What follows a `%`. -/
def logConversion (mem : Mem) (c : Char) : Action Emit (List Word) :=
  match c with
  | 'd' => vaArg fun a => some ((itoa (a.setWidth 32) 10).map .text)
  | 'i' => vaArg fun a => some ((itoa (a.setWidth 32) 10).map .text)
  | 'u' => vaArg fun a => some ((itoa (a.setWidth 32) 10).map .text)
  | 's' => vaArg fun a => if a = 0 then some [] else (string mem a).map fun s => s.map .text
  | 'p' => vaArg fun a => some (zeroX ++ (itoa (a.setWidth 32) 16).map .text)
  | 'x' => vaArg fun a => some (zeroX ++ (itoa (a.setWidth 32) 16).map .text)
  | '%' => print [.text '%']
  | c => print [.text '%', .text c]

/-- One round of the loop.  A `%` at the end is copied with the null character behind it. -/
def logStep (mem : Mem) : Step Char Emit (List Word) := fun c fmt args =>
  if c = '%' then
    match fmt with
    | [] => some ([.text '%', .text '\x00'], [], args)
    | c :: fmt => (logConversion mem c args).map fun r => (r.1, fmt, r.2)
  else some ([.text c], fmt, args)

def logToTerminal (globalFlanterm : Bool) (mem : Mem) (call : LogCall) (fmt : List Char)
    (args : List Word) : Option Printed :=
  if globalFlanterm then
    (scan (logStep mem) fmt.length fmt args).bind fun r =>
      let message := (logHeader call).map .header ++ r.1
      if message.length < 1024 then some ⟨message, args.length - r.2.length⟩ else none
  else some ⟨[], 0⟩

end AncoreOS.Tools
