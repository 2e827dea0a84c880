import WasmImage.Text.Hex

/-!
Debug log entries: the component that logs, a message, and named fields that are strings or
numbers. An entry is written as one tab-separated line, `DEBUG`, component, message and, when it
has fields, the fields as a JSON object with `", "` between members and a space after each colon.
-/

namespace WasmImage

/-- The value of a log field. -/
inductive LogValue where
  | str (s : String)
  | num (n : Nat)
  deriving DecidableEq, Repr

/-- A debug log entry. -/
structure LogEntry where
  logger : String
  message : String
  fields : List (String × LogValue) := []
  deriving DecidableEq, Repr

namespace LogEntry

/-- A string as a JSON string: quotes, backslashes and control characters escaped. -/
def jsonString (s : String) : String :=
  let escape (c : Char) : String :=
    match c with
    | '"' => "\\\""
    | '\\' => "\\\\"
    | '\n' => "\\n"
    | '\r' => "\\r"
    | '\t' => "\\t"
    | _ => if c.toNat < 0x20 then "\\u" ++ Hex.padded 4 c.toNat else String.singleton c
  "\"" ++ String.join (s.toList.map escape) ++ "\""

def LogValue.json : LogValue → String
  | .str s => jsonString s
  | .num n => toString n

/-- The line of an entry. -/
def line (e : LogEntry) : String :=
  let base := "DEBUG\t" ++ e.logger ++ "\t" ++ e.message
  if e.fields.isEmpty then base
  else
    let members := e.fields.map fun (k, v) => jsonString k ++ ": " ++ LogValue.json v
    base ++ "\t\x7b" ++ ", ".intercalate members ++ "\x7d"

end LogEntry

/-- A computation that records log entries, kept even when it fails. -/
abbrev Logged (ε : Type) := ExceptT ε (StateM (Array LogEntry))

/-- Records a log entry, in a computation that cannot fail. -/
def record (logger message : String) (fields : List (String × LogValue)) :
    StateM (Array LogEntry) Unit :=
  modify (·.push { logger, message, fields })

/-- Records a log entry. -/
def logDebug {ε : Type} (logger message : String) (fields : List (String × LogValue)) :
    Logged ε Unit :=
  modify (·.push { logger, message, fields })

end WasmImage
