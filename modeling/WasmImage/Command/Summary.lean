import WasmImage.Command.Loaded

/-!
The summary the command prints for a loaded module, section by section: its memories with their
pages and non-zero bytes, the globals whose values are known, its tables with their filled and
empty slots, the three roles, the hooks it imports, and the constants asked for. Every count and
id is in decimal; a constant is also shown in hexadecimal.
-/

namespace WasmImage.Command

/-- Text as the summary shows it: a tab becomes four spaces. -/
def plain (s : String) : String := s.replace "\t" "    "

/-- The string `s` padded with spaces on the right to `width` characters. -/
def padRight (s : String) (width : Nat) : String :=
  s ++ String.ofList (List.replicate (width - s.length) ' ')

/-- The text of a constant's result. -/
def ConstantResult.text : ConstantResult → String
  | .value n => s!"{n} (0x" ++ Hex.ofNat n.toNat ++ ")"
  | .notConstant => "not constant"
  | .failed f => f.message

namespace Loaded

/-- The memory section. -/
def memoryLines (l : Loaded) : String :=
  s!"\nMemories: {l.image.memories.size}\n" ++ String.join (l.image.memories.toList.zipIdx.map
    fun (m, i) => "  " ++ memoryName i ++ s!"  {m.len / pageSize} pages, {m.nonZero} non-zero bytes\n")

/-- The global section: how many values are known of how many globals, and each known value. -/
def globalLines (l : Loaded) : String :=
  s!"\nGlobals: {l.image.globals.length} known of {l.view.globals.size}\n" ++
    String.join (l.image.globals.map fun (g, val) => "  " ++ globalName g.toNat ++ "  " ++ val.text ++ "\n")

/-- The table section: each table's slots and how many of them are empty. -/
def tableLines (l : Loaded) : String :=
  s!"\nTables: {l.image.tables.size}\n" ++ String.join ((List.range l.view.tables.size).map fun i =>
    let slots := (l.image.tables[i]?).getD #[]
    let empty := (slots.filter (· == invalidFunc)).size
    "  " ++ tableName i ++ s!"  {slots.size} elements, {empty} empty\n")

/-- The role section. -/
def roleLines (l : Loaded) : String :=
  let heap := match l.image.mainHeap with
    | .ok m => memoryName m.toNat
    | .error _ => "none"
  "\nRoles:\n" ++
    "  main heap      " ++ heap ++ "\n" ++
    "  stack pointer  " ++ ((l.image.roles.stackPointer.map (globalName ·.toNat)).getD "none") ++ "\n" ++
    "  main table     " ++ ((l.image.roles.mainTable.map (tableName ·.toNat)).getD "none") ++ "\n"

/-- The hook section: each hook found, its name in a column of 32. -/
def hookLines (l : Loaded) : String :=
  s!"\nIntrinsics: {l.hooks.count}\n" ++ String.join (l.hooks.found.map fun (h, f) =>
    "  " ++ padRight (plain h.name) 32 ++ " " ++ funcName f ++ "\n")

/-- The constant section, present when constants were asked for. -/
def constantLines (l : Loaded) : String :=
  if l.constants.isEmpty then ""
  else "\nConstants:\n" ++ String.join (l.constants.map fun (name, r) =>
    "  " ++ plain name ++ "  " ++ plain r.text ++ "\n")

/-- The summary of the module loaded from `file`. -/
def summary (l : Loaded) (file : String) : String :=
  "Module image " ++ file ++ "\n" ++ l.memoryLines ++ l.globalLines ++ l.tableLines ++
    l.roleLines ++ l.hookLines ++ l.constantLines

end Loaded

end WasmImage.Command
