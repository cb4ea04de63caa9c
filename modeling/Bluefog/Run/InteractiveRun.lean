import Mathlib

/-! # The interactive launcher

`ibfrun` checks its command line and its machine, then starts an ipyparallel
controller and engines launched by `bfrun` on the local machine. `main` is
modelled by its effects on stdout and on processes (what it prints and which shell
commands it runs, with the variables it adds to their environment, in order) and by
how it ends. Its checks come in the source's order with the source's error texts;
what `network_util` and `env_util` compute is an input. A run that ends in
`parser.error` or an uncaught exception also writes argparse's usage line or a
traceback to stderr; the model keeps only the message, in the `Outcome`. Python's
truth value makes `-np 0` count as a missing `-np`, while a negative count is
accepted and passed on to `bfrun`.

The `ValueError` for a wrong command embeds `str(args.command)`, Python's `repr` of a
list of strings, with its choice of quotes and its escapes. A reader of that literal,
one character at a time, gets the list back, so the message names the command
exactly: distinct commands give distinct messages, whatever characters they hold.
-/

namespace Bluefog.InteractiveRun

/-- The fields of `parse_args()` that `main` reads: `-v`/`--version` (`store_true`),
`-np`/`--num-proc` (`type=int`, `none` when absent), `--ipython-profile`
(`default="bluefog"`) and the positional `command` (`nargs=argparse.REMAINDER`).
`main` also reads `--daemonize` into `daemonize_arg`, which nothing then uses, and
hands the whole of `args` to `network_util.get_hosts_arg_and_hostnames`, which reads
`-H`/`--hosts` and `--hostfile`; what it returns enters through `Env`. -/
structure Args where
  version : Bool := false
  np : Option ℤ := none
  profile : String := "bluefog"
  command : List String := []
  deriving DecidableEq, Repr

/-- What `main` learns from the machine: `bluefog.__version__`,
`network_util.filter_local_addresses(all_host_names)` for the host names that
`network_util.get_hosts_arg_and_hostnames(args)` returns,
`env_util.is_open_mpi_installed()`, `env_util.is_ipyparallel_installed()`, and
whether the interpreter's Unicode database counts a non-ASCII character as printable. -/
structure Env where
  version : String
  remoteHostNames : List String
  openMpiInstalled : Bool
  ipyparallelInstalled : Bool
  printable : Char → Bool

/-- Python's truth value of `parsed_args.np`: `None` and `0` are false. -/
def npGiven : Option ℤ → Bool
  | none => false
  | some k => k != 0

/-- `str(args.np)`. -/
def npStr : Option ℤ → String
  | none => "None"
  | some k => toString k

/-- `parse_args()` past argparse: `parser.error` unless `--version` or `-np` is given. -/
def parseArgs (a : Args) : Except String Args :=
  if !a.version && !npGiven a.np then .error "argument -np/--num-proc is required" else .ok a

/-- `print(line)`; `subprocess.run(cmd, shell=True, env=env)`, which waits;
`subprocess.Popen(cmd, shell=True, env=env)`, which does not; `time.sleep(secs)`. The
`env` of a command lists the variables set on top of `os.environ.copy()`. -/
inductive Effect where
  | print (line : String)
  | run (cmd : String) (env : List (String × String))
  | popen (cmd : String) (env : List (String × String))
  | sleep (secs : ℕ)
  deriving DecidableEq, Repr

/-- How `main` ends: `exit(code)`, `parser.error(message)` (exit status 2), or an
uncaught `Exception`, `ValueError` or `RuntimeError`. -/
inductive Outcome where
  | exit (code : ℕ)
  | usageError (message : String)
  | exception (message : String)
  | valueError (message : String)
  | runtimeError (message : String)
  deriving DecidableEq, Repr

def openMpiMessage : String :=
  "ibfrun convenience script currently only supports Open MPI.\n\n" ++
  "Choose one of:\n" ++
  "1. Install Open MPI 4.0.0+ and re-install Bluefog.\n" ++
  "2. Run distributed " ++
  "training script using the standard way provided by your" ++
  " MPI distribution (usually mpirun, srun, or jsrun)."

def ipyparallelMessage : String :=
  "ibfrun is based on the ipyparallel package. Please install it in your\n" ++
  "system like `pip install ipyparallel` first, then run ibfrun again."

def multiMachineMessage : String := "ibfrun does not support on multiple machine yet."

def apostrophe : Char := '\x27'

def dquote : Char := '\x22'

def backslash : Char := '\x5c'

/-- `Py_hexdigits[d]`, a lowercase hex digit. -/
def hexDigit (d : ℕ) : Char := if d < 10 then Char.ofNat (48 + d) else Char.ofNat (87 + d)

/-- The `k` hex digits of `m`, most significant first. -/
def hexDigits : ℕ → ℕ → List Char
  | 0, _ => []
  | k + 1, m => hexDigit (m / 16 ^ k) :: hexDigits k (m % 16 ^ k)

/-- CPython's `unicode_repr` for one character of a literal quoted by `quote`: the quote
and the backslash are escaped; tab, newline and carriage return become `\t`, `\n`,
`\r`; other control characters and DEL become `\xhh`; printable ASCII stays; a
non-ASCII character stays when printable and is otherwise `\xhh`, `\uhhhh` or
`\Uhhhhhhhh`. -/
def reprChar (printable : Char → Bool) (quote c : Char) : List Char :=
  if c = quote ∨ c = backslash then [backslash, c]
  else if c = '\t' then [backslash, 't']
  else if c = '\n' then [backslash, 'n']
  else if c = '\r' then [backslash, 'r']
  else if c.toNat < 0x20 ∨ c.toNat = 0x7f then backslash :: 'x' :: hexDigits 2 c.toNat
  else if c.toNat < 0x7f ∨ printable c then [c]
  else if c.toNat ≤ 0xff then backslash :: 'x' :: hexDigits 2 c.toNat
  else if c.toNat ≤ 0xffff then backslash :: 'u' :: hexDigits 4 c.toNat
  else backslash :: 'U' :: hexDigits 8 c.toNat

/-- `repr` quotes with `"` a string that holds `'` and no `"`, and with `'` otherwise. -/
def quoteFor (s : List Char) : Char :=
  if apostrophe ∈ s ∧ dquote ∉ s then dquote else apostrophe

/-- `repr(s)` for a string. -/
def reprStr (printable : Char → Bool) (s : List Char) : List Char :=
  quoteFor s :: s.flatMap (reprChar printable (quoteFor s)) ++ [quoteFor s]

/-- `str(l)` for a list of strings: `"[" + ", ".join(map(repr, l)) + "]"`. -/
def reprList (printable : Char → Bool) (l : List (List Char)) : List Char :=
  '[' :: List.intercalate [',', ' '] (l.map (reprStr printable)) ++ [']']

/-- The `ValueError` text, `"...but it is {} now.".format(args.command)`. -/
def commandMessage (printable : Char → Bool) (command : List String) : String :=
  "The last command has to be either 'start' or 'stop', but it is " ++
    String.mk (reprList printable (command.map String.toList)) ++ " now."

/-- `ipcontroller_command`. -/
def ipcontrollerCommand (args : Args) : String := "ipcontroller --profile " ++ args.profile

/-- `ipengine_command`. -/
def ipengineCommand (args : Args) (command : String) : String :=
  "bfrun -np " ++ npStr args.np ++ " ipengine " ++ command ++ " --profile " ++ args.profile

/-- `env['BLUEFOG_CYCLE_TIME'] = str(20)`. -/
def engineEnv : List (String × String) := [("BLUEFOG_CYCLE_TIME", toString 20)]

/-- The branch `if not remote_host_names:` for the command `start` or `stop`. -/
def launchLocal (args : Args) (command : String) : List Effect :=
  (if command = "start" then
    [.run "ipcluster nbextension enable --user" engineEnv, .print (ipcontrollerCommand args),
      .popen (ipcontrollerCommand args) engineEnv, .sleep 3]
  else []) ++
    [.print (ipengineCommand args command), .run (ipengineCommand args command) engineEnv]

/-- `main()`: the effects in order, and how it ends. -/
def main (env : Env) (a : Args) : List Effect × Outcome :=
  match parseArgs a with
  | .error message => ([], .usageError message)
  | .ok args =>
    if args.version then ([.print env.version], .exit 0)
    else if !env.openMpiInstalled then ([], .exception openMpiMessage)
    else if !env.ipyparallelInstalled then ([], .exception ipyparallelMessage)
    else match args.command with
      | [command] =>
        if command = "start" ∨ command = "stop" then
          if env.remoteHostNames.isEmpty then (launchLocal args command, .exit 0)
          else ([], .runtimeError multiMachineMessage)
        else ([], .valueError (commandMessage env.printable args.command))
      | _ => ([], .valueError (commandMessage env.printable args.command))

def localEnv : Env := ⟨"0.2.1", [], true, true, fun _ => true⟩

example : main localEnv { np := some 0, command := ["start"] } =
    ([], .usageError "argument -np/--num-proc is required") := by decide

example : main localEnv { np := some (-1), command := ["stop"] } =
    ([.print "bfrun -np -1 ipengine stop --profile bluefog",
      .run "bfrun -np -1 ipengine stop --profile bluefog" [("BLUEFOG_CYCLE_TIME", "20")]],
      .exit 0) := by
  decide

example : (main localEnv { np := some 4, command := ["it's", "a\tb"] }).2 =
    .valueError ("The last command has to be either 'start' or 'stop', but it is " ++
      "[\"it's\", 'a\\tb'] now.") := by
  decide

/-- Reading `str(l)` back, one character at a time: `item` after `[` or `, `, `str`
inside a literal, `esc` after a backslash, `hex` with `more + 1` digits to go, `close`
after a closing quote. -/
inductive ReadState where
  | start
  | item (items : List (List Char))
  | str (items : List (List Char)) (quote : Char) (cur : List Char)
  | esc (items : List (List Char)) (quote : Char) (cur : List Char)
  | hex (items : List (List Char)) (quote : Char) (cur : List Char) (more acc : ℕ)
  | close (items : List (List Char))
  | comma (items : List (List Char))
  | done (items : List (List Char))
  | fail

def hexVal (c : Char) : Option ℕ :=
  if 48 ≤ c.toNat ∧ c.toNat < 58 then some (c.toNat - 48)
  else if 97 ≤ c.toNat ∧ c.toNat < 103 then some (c.toNat - 87)
  else if 65 ≤ c.toNat ∧ c.toNat < 71 then some (c.toNat - 55)
  else none

def readStep : ReadState → Char → ReadState
  | .start, c => if c = '[' then .item [] else .fail
  | .item items, c =>
    if c = ']' then .done items
    else if c = apostrophe ∨ c = dquote then .str items c [] else .fail
  | .str items q cur, c =>
    if c = backslash then .esc items q cur
    else if c = q then .close (items ++ [cur]) else .str items q (cur ++ [c])
  | .esc items q cur, c =>
    if c = 'x' then .hex items q cur 1 0
    else if c = 'u' then .hex items q cur 3 0
    else if c = 'U' then .hex items q cur 7 0
    else if c = 't' then .str items q (cur ++ ['\t'])
    else if c = 'n' then .str items q (cur ++ ['\n'])
    else if c = 'r' then .str items q (cur ++ ['\r'])
    else if c = backslash ∨ c = apostrophe ∨ c = dquote then .str items q (cur ++ [c])
    else .fail
  | .hex items q cur more acc, c =>
    match hexVal c, more with
    | some d, 0 => .str items q (cur ++ [Char.ofNat (acc * 16 + d)])
    | some d, more + 1 => .hex items q cur more (acc * 16 + d)
    | none, _ => .fail
  | .close items, c => if c = ',' then .comma items else if c = ']' then .done items else .fail
  | .comma items, c => if c = ' ' then .item items else .fail
  | .done _, _ => .fail
  | .fail, _ => .fail

section ReadStep

variable (items : List (List Char)) (q c : Char) (cur : List Char)

@[simp] theorem readStep_start : readStep .start c = if c = '[' then .item [] else .fail := rfl

@[simp] theorem readStep_item : readStep (.item items) c =
    if c = ']' then .done items else if c = apostrophe ∨ c = dquote then .str items c [] else .fail :=
  rfl

@[simp] theorem readStep_str : readStep (.str items q cur) c =
    if c = backslash then .esc items q cur
    else if c = q then .close (items ++ [cur]) else .str items q (cur ++ [c]) :=
  rfl

@[simp] theorem readStep_esc : readStep (.esc items q cur) c =
    if c = 'x' then .hex items q cur 1 0
    else if c = 'u' then .hex items q cur 3 0
    else if c = 'U' then .hex items q cur 7 0
    else if c = 't' then .str items q (cur ++ ['\t'])
    else if c = 'n' then .str items q (cur ++ ['\n'])
    else if c = 'r' then .str items q (cur ++ ['\r'])
    else if c = backslash ∨ c = apostrophe ∨ c = dquote then .str items q (cur ++ [c])
    else .fail :=
  rfl

@[simp] theorem readStep_close : readStep (.close items) c =
    if c = ',' then .comma items else if c = ']' then .done items else .fail :=
  rfl

@[simp] theorem readStep_comma : readStep (.comma items) c = if c = ' ' then .item items else .fail :=
  rfl

end ReadStep

def readList (cs : List Char) : Option (List (List Char)) :=
  match cs.foldl readStep .start with
  | .done items => some items
  | _ => none

theorem hexVal_hexDigit : ∀ d, d < 16 → hexVal (hexDigit d) = some d := by
  decide

theorem foldl_hexDigits (items : List (List Char)) (q : Char) (cur : List Char) :
    ∀ k m acc, m < 16 ^ (k + 1) → (hexDigits (k + 1) m).foldl readStep (.hex items q cur k acc) =
      .str items q (cur ++ [Char.ofNat (acc * 16 ^ (k + 1) + m)])
  | 0, m, acc, hm => by
    simp only [Nat.zero_add, Nat.pow_one] at hm ⊢
    simp only [hexDigits, Nat.pow_zero, Nat.div_one, List.foldl, readStep, hexVal_hexDigit m hm]
  | k + 1, m, acc, hm => by
    have hP : 0 < 16 ^ (k + 1) := Nat.pos_pow_of_pos _ (by decide)
    have hd : m / 16 ^ (k + 1) < 16 := Nat.div_lt_of_lt_mul (by rwa [← Nat.pow_succ])
    rw [hexDigits.eq_2, List.foldl_cons]
    simp only [readStep, hexVal_hexDigit _ hd]
    rw [foldl_hexDigits items q cur k _ _ (Nat.mod_lt _ hP)]
    conv_rhs => rw [← Nat.div_add_mod m (16 ^ (k + 1)), Nat.pow_succ 16 (k + 1)]
    simp only [Nat.mul_add, Nat.add_mul, Nat.mul_assoc, Nat.mul_comm, Nat.mul_left_comm, Nat.add_assoc]

theorem foldl_escape_hex (items : List (List Char)) (q : Char) (cur : List Char) (e : Char) (k : ℕ)
    (he : readStep (.esc items q cur) e = .hex items q cur k 0) {c : Char} (hc : c.toNat < 16 ^ (k + 1)) :
    (backslash :: e :: hexDigits (k + 1) c.toNat).foldl readStep (.str items q cur) =
      .str items q (cur ++ [c]) := by
  simp [he, foldl_hexDigits items q cur k _ 0 hc]

theorem toNat_lt_of_char (c : Char) : c.toNat < 16 ^ 8 := by
  have := c.valid
  simp only [Char.toNat, UInt32.isValidChar, Nat.isValidChar] at this ⊢
  omega

theorem foldl_reprChar (printable : Char → Bool) {q : Char} (hq : q = apostrophe ∨ q = dquote)
    (items : List (List Char)) (cur : List Char) (c : Char) :
    (reprChar printable q c).foldl readStep (.str items q cur) = .str items q (cur ++ [c]) := by
  have hqb : q ≠ backslash := by rcases hq with rfl | rfl <;> decide
  unfold reprChar
  by_cases h1 : c = q ∨ c = backslash
  · rw [if_pos h1]
    rcases h1 with rfl | rfl
    · rcases hq with rfl | rfl <;> simp [apostrophe, dquote, backslash]
    · simp [apostrophe, dquote, backslash]
  rw [if_neg h1]
  by_cases h2 : c = '\t'
  · rw [if_pos h2]; subst h2; simp [backslash]
  rw [if_neg h2]
  by_cases h3 : c = '\n'
  · rw [if_pos h3]; subst h3; simp [backslash]
  rw [if_neg h3]
  by_cases h4 : c = '\r'
  · rw [if_pos h4]; subst h4; simp [backslash]
  rw [if_neg h4]
  by_cases h5 : c.toNat < 0x20 ∨ c.toNat = 0x7f
  · rw [if_pos h5]; exact foldl_escape_hex items q cur 'x' 1 (by simp) (by omega)
  rw [if_neg h5]
  by_cases h6 : c.toNat < 0x7f ∨ printable c
  · rw [if_pos h6]
    push_neg at h1
    simp [h1.1, h1.2]
  rw [if_neg h6]
  by_cases h7 : c.toNat ≤ 0xff
  · rw [if_pos h7]; exact foldl_escape_hex items q cur 'x' 1 (by simp) (by omega)
  rw [if_neg h7]
  by_cases h8 : c.toNat ≤ 0xffff
  · rw [if_pos h8]; exact foldl_escape_hex items q cur 'u' 3 (by simp) (by omega)
  rw [if_neg h8]
  exact foldl_escape_hex items q cur 'U' 7 (by simp) (toNat_lt_of_char c)

theorem foldl_flatMap_reprChar (printable : Char → Bool) {q : Char} (hq : q = apostrophe ∨ q = dquote)
    (items : List (List Char)) :
    ∀ s cur : List Char,
      (s.flatMap (reprChar printable q)).foldl readStep (.str items q cur) = .str items q (cur ++ s)
  | [], cur => by simp
  | c :: s, cur => by
    rw [List.flatMap_cons, List.foldl_append, foldl_reprChar printable hq,
      foldl_flatMap_reprChar printable hq items s, List.append_assoc, List.singleton_append]

theorem quoteFor_eq (s : List Char) : quoteFor s = apostrophe ∨ quoteFor s = dquote := by
  unfold quoteFor
  split_ifs <;> simp

/-- Reading `repr(s)` after `[` or `, ` takes in the string `s`. -/
theorem foldl_reprStr (printable : Char → Bool) (items : List (List Char)) (s : List Char) :
    (reprStr printable s).foldl readStep (.item items) = .close (items ++ [s]) := by
  have hq := quoteFor_eq s
  have hqb : quoteFor s ≠ backslash ∧ quoteFor s ≠ ']' := by
    rcases hq with h | h <;> rw [h] <;> decide
  simp only [reprStr, List.foldl_append, List.foldl_cons, List.foldl_nil]
  rw [readStep_item, if_neg hqb.2, if_pos hq, foldl_flatMap_reprChar printable hq, List.nil_append]
  simp [hqb.1]

theorem intercalate_cons_cons {α : Type*} (sep x y : List α) (l : List (List α)) :
    List.intercalate sep (x :: y :: l) = x ++ sep ++ List.intercalate sep (y :: l) := by
  simp [List.intercalate, List.append_assoc]

theorem foldl_intercalate_reprStr (printable : Char → Bool) :
    ∀ (s : List Char) (ss items : List (List Char)),
      (List.intercalate [',', ' '] ((s :: ss).map (reprStr printable))).foldl readStep (.item items) =
        .close (items ++ s :: ss)
  | s, [], items => by simpa [List.intercalate] using foldl_reprStr printable items s
  | s, t :: ts, items => by
    rw [List.map_cons, List.map_cons, intercalate_cons_cons, List.foldl_append, List.foldl_append,
      foldl_reprStr, ← List.map_cons]
    rw [List.foldl_cons, List.foldl_cons, List.foldl_nil, readStep_close, if_pos rfl, readStep_comma,
      if_pos rfl, foldl_intercalate_reprStr printable t ts, List.append_assoc, List.singleton_append]

/-- The reader gets back the list of strings that `str` wrote. -/
theorem readList_reprList (printable : Char → Bool) (l : List (List Char)) :
    readList (reprList printable l) = some l := by
  cases l with
  | nil => rfl
  | cons s ss =>
    simp only [readList, reprList, List.foldl_append, List.foldl_cons, List.foldl_nil]
    rw [readStep_start, if_pos rfl, foldl_intercalate_reprStr, readStep_close, if_neg (by decide),
      if_pos rfl, List.nil_append]

/-- The `ValueError` names the command exactly: distinct commands give distinct messages,
whatever characters their words hold. -/
theorem commandMessage_injective (printable : Char → Bool) :
    Function.Injective (commandMessage printable) := by
  intro a b h
  have h' := congrArg String.data h
  simp only [commandMessage, String.data_append] at h'
  have hl := congrArg readList (List.append_cancel_left (List.append_cancel_right h'))
  rw [readList_reprList, readList_reprList, Option.some_inj] at hl
  exact List.map_injective_iff.mpr (fun _ _ => String.ext) hl

end Bluefog.InteractiveRun
