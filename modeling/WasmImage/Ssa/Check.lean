import WasmImage.Ssa.Basic

/-!
The well-formedness check of a lowered body: the entry block exists; a block without a
terminator is allowed only if it is not the entry and nothing branches to it; every value a
block uses is defined; every edge goes to an existing block with one argument per parameter;
and every return carries one value per result.
-/

namespace WasmImage.Ssa

/-- Why a body is not well formed. -/
inductive CheckFault where
  | noEntry (entry : Nat)
  | noTerminator (blk : Nat)
  | undefinedValue (blk v : Nat)
  | undefinedArg (blk v arg : Nat)
  | missingBlock (blk target : Nat)
  | argCount (blk target given wanted : Nat)
  | undefinedBranchArg (blk v : Nat)
  | returnCount (blk given wanted : Nat)
  deriving DecidableEq, Repr

/-- The text of a check failure. -/
def CheckFault.message : CheckFault → String
  | .noEntry e => s!"entry block{e} does not exist"
  | .noTerminator b => s!"block{b} has no terminator"
  | .undefinedValue b v => s!"block{b}: undefined value v{v}"
  | .undefinedArg b v a => s!"block{b}: v{v} uses undefined value v{a}"
  | .missingBlock b t => s!"block{b}: branch to missing block{t}"
  | .argCount b t n w => s!"block{b}: branch to block{t} passes {n} args, want {w}"
  | .undefinedBranchArg b v => s!"block{b}: branch argument v{v} undefined"
  | .returnCount b n w => s!"block{b}: returns {n} values, want {w}"

namespace Body

/-- The arguments a value's operator uses. -/
def argsOf (b : Body) (v : Nat) : List Nat :=
  match b.values[v]? with
  | some (.operator _ args _) => args
  | _ => []

/-- Checks one block with a terminator. -/
def checkBlock (b : Body) (i : Nat) (blk : Block) (term : Terminator) : Except CheckFault Unit := do
  let n := b.values.size
  for v in blk.insts do
    if v ≥ n then throw (.undefinedValue i v)
    for a in b.argsOf v do
      if a ≥ n then throw (.undefinedArg i v a)
  for succ in term.successors do
    let some target := b.blocks[succ.block]? | throw (.missingBlock i succ.block)
    if succ.args.length != target.params.size then
      throw (.argCount i succ.block succ.args.length target.params.size)
    for a in succ.args do
      if a ≥ n then throw (.undefinedBranchArg i a)
  match term with
  | .ret vals =>
    if vals.length != b.results.length then throw (.returnCount i vals.length b.results.length)
  | _ => pure ()

/-- Checks the body, block by block. -/
def check (b : Body) : Except CheckFault Unit := do
  if b.entry ≥ b.blocks.size then throw (.noEntry b.entry)
  for (blk, i) in b.blocks.toList.zipIdx do
    match blk.term with
    | none => if i = b.entry || !blk.preds.isEmpty then throw (.noTerminator i)
    | some term => checkBlock b i blk term

end Body

end WasmImage.Ssa
