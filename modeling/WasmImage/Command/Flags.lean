import WasmImage.Text.Quote

/-!
The flags of the `weval-image` command and how its arguments are read. Flags come first: the
first argument that is not a flag ends them, a lone `--` ends them and is dropped, and whatever
follows is ignored. A flag is written `-name` or `--name`. A valued flag takes the text after `=`
or else the next argument, whatever it looks like; a switch is turned on by its name alone or set
by a truth value after `=`. `-h` and `-help` ask for the usage text. Reading stops at the first
flag that is malformed, unknown or missing its value, with the reason.

The usage text lists the flags by name, each with the kind of value it takes and what it does.
-/

namespace WasmImage.Command

/-- What the flags ask the command to do. -/
structure Options where
  wasm : String := ""
  output : String := ""
  constants : List String := []
  verify : Bool := false
  interactive : Bool := false
  verbose : Bool := false
  deriving DecidableEq, Repr

/-- Unicode white space, which is trimmed from constant names. -/
def isSpace (c : Char) : Bool :=
  let n := c.toNat
  (9 ≤ n && n ≤ 13) || n == 32 || n == 0x85 || n == 0xa0 || n == 0x1680 ||
    (0x2000 ≤ n && n ≤ 0x200a) || n == 0x2028 || n == 0x2029 || n == 0x202f || n == 0x205f ||
    n == 0x3000

/-- The string `s` without white space at either end. -/
def trimSpace (s : String) : String :=
  String.ofList ((s.toList.dropWhile isSpace).reverse.dropWhile isSpace).reverse

/-- Adds the names of a `-const` value: a comma-separated list, each name trimmed, empty names
dropped. -/
def Options.addConstants (o : Options) (value : String) : Options :=
  { o with constants := o.constants ++ ((value.splitOn ",").map trimSpace).filter (· ≠ "") }

/-- What a flag does with what it is given. -/
inductive FlagAction where
  /-- Takes a text value; the last one given counts. -/
  | text (set : Options → String → Options)
  /-- Takes a value each time it is given; the values add up. -/
  | list (add : Options → String → Options)
  /-- Is on or off. -/
  | switch (set : Options → Bool → Options)

/-- A flag: its name, what it does, and the line of help about it. -/
structure Flag where
  name : String
  action : FlagAction
  help : String

/-- The command's flags, sorted by name. -/
def flags : List Flag :=
  [⟨"const", .list Options.addConstants,
     "Exported () -> i32 function to extract a constant from (repeatable)"⟩,
   ⟨"i", .switch fun o b => { o with interactive := b }, "Browse memories interactively"⟩,
   ⟨"o", .text fun o s => { o with output := s },
     "Write the module back with its memory image to this path"⟩,
   ⟨"v", .switch fun o b => { o with verbose := b }, "Debug logging"⟩,
   ⟨"verify", .switch fun o b => { o with verify := b },
     "Check the image against a wazero instance"⟩,
   ⟨"wasm", .text fun o s => { o with wasm := s }, "Path to core wasm module"⟩]

/-- The flag named `name`. -/
def flag? (name : String) : Option Flag := flags.find? (·.name == name)

/-- The name of the command in its usage text. -/
def commandName : String := "weval-image"

/-- The help lines of one flag: its name, the kind of value it takes, and its help, on the same
line when the name is a single letter without a value and on a line of its own otherwise. -/
def Flag.usageLines (f : Flag) : String :=
  let kind := match f.action with
    | .text _ => " string"
    | .list _ => " value"
    | .switch _ => ""
  let head := "  -" ++ f.name ++ kind
  let sep := if head.length ≤ 4 then "\t" else "\n    \t"
  head ++ sep ++ f.help.replace "\n" "\n    \t" ++ "\n"

/-- The usage text: a title and every flag's help lines. -/
def usage : String :=
  "Usage of " ++ commandName ++ ":\n" ++ String.join (flags.map Flag.usageLines)

/-- The truth value a switch may be set to after `=`. -/
def truthValue? (s : String) : Option Bool :=
  if ["1", "t", "T", "TRUE", "true", "True"].contains s then some true
  else if ["0", "f", "F", "FALSE", "false", "False"].contains s then some false
  else none

/-- What one argument is, read as a flag. -/
inductive ArgShape where
  /-- Not a flag: flags end before it. -/
  | operand
  /-- A lone `--`: flags end with it. -/
  | terminator
  /-- Starts like a flag but has no usable name. -/
  | malformed
  /-- A flag, with the value given after `=` if there is one. -/
  | flag (name : String) (value : Option String)
  deriving DecidableEq, Repr

/-- Reads one argument as a flag. -/
def ArgShape.of (arg : String) : ArgShape :=
  match arg.toList with
  | '-' :: '-' :: [] => .terminator
  | '-' :: c :: rest =>
    let body := if c == '-' then rest else c :: rest
    match body with
    | [] | '-' :: _ | '=' :: _ => .malformed
    | first :: more =>
      match more.idxOf? '=' with
      | some k => .flag (String.ofList (first :: more.take k)) (some (String.ofList (more.drop (k + 1))))
      | none => .flag (String.ofList body) none
  | _ => .operand

/-- How reading the arguments ended. -/
inductive FlagOutcome where
  /-- The flags were read; run with these options. -/
  | run (opts : Options)
  /-- The usage text was asked for. -/
  | help
  /-- An argument could not be read, for this reason. -/
  | bad (reason : String)
  deriving DecidableEq, Repr

/-- Reads the flags at the head of `args` into `opts`. -/
def readFlagsFrom (opts : Options) : List String → FlagOutcome
  | [] => .run opts
  | arg :: rest =>
    match ArgShape.of arg with
    | .operand | .terminator => .run opts
    | .malformed => .bad ("bad flag syntax: " ++ arg)
    | .flag name value =>
      match flag? name with
      | none =>
        if name == "help" || name == "h" then .help
        else .bad ("flag provided but not defined: -" ++ name)
      | some f =>
        match f.action, value with
        | .switch set, none => readFlagsFrom (set opts true) rest
        | .switch set, some v =>
          match truthValue? v with
          | some b => readFlagsFrom (set opts b) rest
          | none => .bad ("invalid boolean value " ++ Quote.quote v ++ " for -" ++ name ++ ": parse error")
        | .text set, some v | .list set, some v => readFlagsFrom (set opts v) rest
        | .text set, none | .list set, none =>
          match rest with
          | v :: more => readFlagsFrom (set opts v) more
          | [] => .bad ("flag needs an argument: -" ++ name)

/-- Reads the command's arguments. -/
def readFlags (args : List String) : FlagOutcome := readFlagsFrom {} args

end WasmImage.Command
