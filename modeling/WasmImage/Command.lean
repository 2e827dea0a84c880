import WasmImage.Command.Flags
import WasmImage.Command.Directory
import WasmImage.Command.Summary
import WasmImage.View.Encode
import WasmImage.Verify

/-!
The `weval-image` command: it loads a module, prints the summary of its image, and on request
writes the module back with its memories as one segment each (`-o`) and checks the image against
the reference engine (`-verify`). With `-v` it logs each step on the error stream.

The command runs on any `Files` in any monad, and the answer is an `Outcome`: the exit code and
the text of each stream. Bad flags exit with 2 and the usage text, `-h` exits with 0 and the
usage text, a missing module path exits with 1 and two lines of usage, and a failure to load,
write or check exits with 1 and the reason after the summary printed so far. A crash exits
with 2 and the runtime's text. Interactive
browsing needs a terminal, which the command never has, so `-i` fails once the module is loaded.
-/

namespace WasmImage.Command

/-- What a run of the command leaves: its exit code and the text on each output stream. -/
structure Outcome where
  exitCode : UInt32
  stdout : String := ""
  stderr : String := ""
  deriving DecidableEq, Repr

/-- The usage lines printed when no module is named. -/
def shortUsage : String :=
  "Usage: " ++ commandName ++ " -wasm <file.wasm> [-const name]... [-o out.wasm] [-verify]\n" ++
  "       " ++ commandName ++ " -wasm <file.wasm> -i  (interactive mode)\n"

/-- Why interactive browsing fails: there is no terminal to open. -/
def noTerminal : String := "could not open a new TTY: open /dev/tty: no such device or address"

/-- What the command has printed so far: the text on standard output and the log entries. -/
structure Report where
  out : String := ""
  log : Array LogEntry := #[]

/-- Why a run of the command stops early: a failure, with the reason it prints, or a crash, with
the runtime's text. -/
inductive Stop where
  | reason (text : String)
  | crash (text : String)

/-- How a failure of loading or checking stops the command, its fault's text after `context`. -/
def Stop.ofFailure (context : String) : Failure → Stop
  | .fault f => .reason (context ++ f.message)
  | .crash t => .crash t

/-- A run of the command in `m`: it prints to a report and may stop. -/
abbrev Session (m : Type → Type) := ExceptT Stop (StateT Report m)

namespace Session

variable {m : Type → Type} [Monad m]

/-- Prints `s` on standard output. -/
def say (s : String) : Session m Unit := modify fun r => { r with out := r.out ++ s }

/-- Runs a logged step, keeping its log; a failure stops the run as `stop` says. -/
def absorb {ε α : Type} (x : Logged ε α) (stop : ε → Stop) : Session m α := do
  let (r, log) := x.run.run #[]
  modify fun rep => { rep with log := rep.log ++ log }
  match r with
  | .ok a => pure a
  | .error e => throw (stop e)

/-- Stops the run with `text` as its reason. -/
def fail {α : Type} (text : String) : Session m α := throw (.reason text)

end Session

open Session in
/-- The work of the command once its flags are read. -/
def execute {m : Type → Type} [Monad m] (files : Files m) (opts : Options) : Session m Unit := do
  let bytes ← match ← (files.read opts.wasm : m _) with
    | .ok b => pure b
    | .error e => fail ("read file: " ++ e)
  let l ← absorb (Loaded.ofBytes bytes opts.constants) (Stop.ofFailure "")
  if opts.interactive then fail noTerminal
  say (l.summary opts.wasm)
  let mut v := l.view
  if opts.output != "" then
    v ← absorb (l.view.withImage l.image) fun e => .reason e.message
    let bin ← match v.encode with
      | .ok b => pure b
      | .error f => fail f.message
    match ← (files.write opts.output bin : m _) with
    | .ok () => say ("\nWrote " ++ opts.output ++ s!" ({bin.size} bytes)\n")
    | .error e => fail ("write output: " ++ e)
  if opts.verify then
    absorb (Verify.image v l.image {}) (Stop.ofFailure "verify: ")
    say "Image matches wazero instance\n"

/-- Runs the command with arguments `args` on `files`. -/
def run {m : Type → Type} [Monad m] (files : Files m) (args : List String) : m Outcome := do
  match readFlags args with
  | .help => return { exitCode := 0, stderr := usage }
  | .bad reason => return { exitCode := 2, stderr := reason ++ "\n" ++ usage }
  | .run opts =>
    if opts.wasm == "" then return { exitCode := 1, stderr := shortUsage }
    let (r, rep) ← (execute files opts).run.run {}
    let log := if opts.verbose then String.join (rep.log.toList.map (·.line ++ "\n")) else ""
    match r with
    | .ok () => return { exitCode := 0, stdout := rep.out, stderr := log }
    | .error (.reason e) =>
      return { exitCode := 1, stdout := rep.out, stderr := log ++ "Error: " ++ e ++ "\n" }
    | .error (.crash t) =>
      return { exitCode := 2, stdout := rep.out, stderr := log ++ "panic: " ++ t ++ "\n" }

/-- Runs the command with arguments `args` on a directory held in memory: the outcome and the
directory afterwards. -/
def runIn (dir : Directory) (args : List String) : Outcome × Directory :=
  (run Directory.access args).run dir

end WasmImage.Command
