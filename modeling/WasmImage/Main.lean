import WasmImage.Command

/-!
The `weval-image` program: the command on the real file system. It prints the outcome's two
streams and exits with its code. A file that cannot be opened, read or written gives the
operating system's reason in lower case after the step and the path, as in
`open out/x.wasm: no such file or directory`.
-/

namespace WasmImage.Command

/-- The operating system's reason in an IO failure, starting in lower case. -/
def osReason (e : IO.Error) : String :=
  let lower (d : String) : String := match d.toList with
    | c :: rest => String.ofList (c.toLower :: rest)
    | [] => d
  match e with
  | .noFileOrDirectory _ _ d | .inappropriateType _ _ d | .permissionDenied _ _ d
  | .alreadyExists _ _ d | .invalidArgument _ _ d | .resourceExhausted _ _ d
  | .noSuchThing _ _ d | .interrupted _ _ d => lower d
  | .otherError _ d | .resourceBusy _ d | .resourceVanished _ d | .unsupportedOperation _ d
  | .hardwareFault _ d | .unsatisfiedConstraints _ d | .illegalOperation _ d
  | .protocolError _ d | .timeExpired _ d => lower d
  | e => toString e

/-- Runs `act`, giving a failure as `step path: reason`. -/
def attempt {α : Type} (step path : String) (act : IO α) : IO (Except String α) := do
  try return .ok (← act)
  catch e => return .error (step ++ " " ++ path ++ ": " ++ osReason e)

/-- The real file system. -/
def systemFiles : Files IO where
  read path := do
    match ← attempt "open" path (IO.FS.Handle.mk path .read) with
    | .error e => return .error e
    | .ok h => attempt "read" path h.readBinToEnd
  write path data := do
    match ← attempt "open" path (IO.FS.Handle.mk path .write) with
    | .error e => return .error e
    | .ok h => attempt "write" path (h.write data)

end WasmImage.Command

/-- Runs `weval-image` with the command-line arguments. -/
def main (args : List String) : IO UInt32 := do
  let o ← WasmImage.Command.run WasmImage.Command.systemFiles args
  IO.print o.stdout
  (← IO.getStdout).flush
  IO.eprint o.stderr
  return o.exitCode
