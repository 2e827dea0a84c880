import WasmImage.Text.Hex
import WasmImage.Text.Quote

/-!
Faults of the library's phases. A fault names the phase it arose in, its kind, the path of the
thing at fault, a detail, and the text of the failure that caused it. It is written
`[phase] kind at path: detail (caused by: cause)`, leaving out the parts it lacks.

A fault matches a pattern when their kinds agree and, for each of phase, path and detail that the
pattern has, the fault has the same. Five patterns are named: they are what callers test faults
of images against.

A failure is a fault or a crash: some inputs break a bound that the code indexes by without a
check, and the operation then stops with the runtime's text instead of a fault.
-/

namespace WasmImage

/-- The phase a fault arose in. -/
inductive Phase where
  | decode
  | resolve
  | lower
  | build
  | read
  | write
  | encode
  | verify
  deriving DecidableEq, Repr

def Phase.name : Phase → String
  | .decode => "decode"
  | .resolve => "resolve"
  | .lower => "lower"
  | .build => "build"
  | .read => "read"
  | .write => "write"
  | .encode => "encode"
  | .verify => "verify"

/-- What kind of fault. -/
inductive FaultKind where
  | outOfBounds
  | notConfigured
  | invalidUtf8
  | invalidData
  | unsupported
  | notFound
  | mismatch
  deriving DecidableEq, Repr

def FaultKind.name : FaultKind → String
  | .outOfBounds => "out_of_bounds"
  | .notConfigured => "not_configured"
  | .invalidUtf8 => "invalid_utf8"
  | .invalidData => "invalid_data"
  | .unsupported => "unsupported"
  | .notFound => "not_found"
  | .mismatch => "mismatch"

/-- A fault of one of the library's phases. -/
structure Fault where
  phase : Phase
  kind : FaultKind
  path : List String := []
  detail : String := ""
  cause : Option String := none
  deriving DecidableEq, Repr

namespace Fault

/-- The text of a fault. -/
def message (f : Fault) : String :=
  let at_ := if f.path.isEmpty then "" else " at " ++ " ".intercalate f.path
  let detail := if f.detail.isEmpty then "" else ": " ++ f.detail
  let cause := match f.cause with
    | some c => " (caused by: " ++ c ++ ")"
    | none => ""
  "[" ++ f.phase.name ++ "] " ++ f.kind.name ++ at_ ++ detail ++ cause

/-- An access of `size` bytes at `addr` past the end of something `length` bytes long. -/
def outOfBounds (phase : Phase) (path : List String) (addr : Nat) (size : Nat) (length : Nat) :
    Fault :=
  { phase, kind := .outOfBounds, path,
    detail := s!"access of {size} bytes at 0x" ++ Hex.ofNat addr ++ " out of bounds (length 0x" ++
      Hex.ofNat length ++ ")" }

/-- An index past the end of a list of `length` entries. -/
def indexOutOfBounds (phase : Phase) (path : List String) (index length : Nat) : Fault :=
  { phase, kind := .outOfBounds, path, detail := s!"index {index} out of bounds (length {length})" }

/-- Something the caller did not set up. -/
def notConfigured (phase : Phase) (what : String) : Fault :=
  { phase, kind := .notConfigured, detail := "no " ++ what }

/-- Bytes that are not UTF-8, shown by their first 32. -/
def invalidUtf8 (phase : Phase) (path : List String) (data : ByteArray) : Fault :=
  { phase, kind := .invalidUtf8, path,
    detail := "invalid UTF-8 sequence: " ++ Hex.ofBytes (data.extract 0 32) }

def invalidData (phase : Phase) (path : List String) (detail : String) : Fault :=
  { phase, kind := .invalidData, path, detail }

def unsupported (phase : Phase) (what : String) : Fault :=
  { phase, kind := .unsupported, detail := what }

/-- A named thing that does not exist; the name is quoted. -/
def notFound (phase : Phase) (what name : String) : Fault :=
  { phase, kind := .notFound, detail := what ++ " " ++ Quote.quote name ++ " not found" }

/-- A fault caused by another failure, given by its text. -/
def wrap (phase : Phase) (kind : FaultKind) (cause : String) (detail : String) : Fault :=
  { phase, kind, detail, cause := some cause }

/-- The fault with its path replaced. -/
def atPath (f : Fault) (path : List String) : Fault := { f with path }

end Fault

/-- What a fault may be tested against. -/
structure FaultPattern where
  kind : FaultKind
  phase : Option Phase := none
  path : List String := []
  detail : String := ""

/-- Whether `f` matches `p`: same kind, and the same phase, path and detail where `p` has them. -/
def Fault.matches (f : Fault) (p : FaultPattern) : Bool :=
  f.kind == p.kind &&
    (p.phase.all (· == f.phase)) &&
    (p.path.isEmpty || " ".intercalate f.path == " ".intercalate p.path) &&
    (p.detail.isEmpty || f.detail == p.detail)

/-- The named patterns that faults of images are tested against. -/
inductive Sentinel where
  | outOfBounds
  | invalidUtf8
  | noMainHeap
  | noMainTable
  | funcPtrOutOfBounds
  deriving DecidableEq, Repr

namespace Sentinel

/-- Every named pattern, in a fixed order. -/
def all : List Sentinel := [.outOfBounds, .invalidUtf8, .noMainHeap, .noMainTable, .funcPtrOutOfBounds]

def pattern : Sentinel → FaultPattern
  | .outOfBounds => { kind := .outOfBounds }
  | .invalidUtf8 => { kind := .invalidUtf8 }
  | .noMainHeap => { kind := .notConfigured, detail := "no main heap" }
  | .noMainTable => { kind := .notConfigured, detail := "no main table" }
  | .funcPtrOutOfBounds => { kind := .outOfBounds, path := ["main table"] }

end Sentinel

/-- The named patterns a fault matches, in their fixed order. -/
def Fault.sentinels (f : Fault) : List Sentinel :=
  Sentinel.all.filter fun s => f.matches s.pattern

/-- How an operation stops short: with a fault, or by crashing on input that breaks a bound the
code takes for granted, with the runtime's text for the broken bound
(`runtime error: index out of range [5] with length 1`). -/
inductive Failure where
  | fault (f : Fault)
  | crash (text : String)
  deriving DecidableEq, Repr

/-- Lifts a computation that fails with faults to one that fails with failures. -/
def Failure.ofFaults {m : Type → Type} [Monad m] {α : Type} (x : ExceptT Fault m α) :
    ExceptT Failure m α :=
  ExceptT.adapt Failure.fault x

end WasmImage
