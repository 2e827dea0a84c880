import WasmImage.Proofs.Lowered

/-!
# Running a body

A semantics of bodies with block parameters, over values of any type and for any meaning of the
operators (`Interp`). Entering a block binds its parameters to the arguments of the edge taken;
its operators run in order, each giving results the interpretation allows; its terminator
returns values or takes one of its edges. A conditional or a table branch may take any of its
edges, which covers every way of deciding them, so a fact about every run holds whatever the
conditions compute. The one law an interpretation keeps is that an `i32.const` gives its
literal.

`Body.Runs I args rs`: a run from the entry block with arguments `args` returns `rs`.

The values a run has computed form an environment. Only running an operator writes its value
(`RunsOps.frame`), so a literal, once computed, is the only thing a run can read from it
(`Literals`).
-/

namespace WasmImage.Ssa

open Wasm

/-- What the operators compute, over values of type `α`: `apply o args rs` when `o` applied to
`args` may give the results `rs`. Any relation will do, so an operator may read state the body
does not show, or trap; only an `i32.const` must give its literal, which `lit` makes a value. -/
structure Interp (α : Type) where
  apply : Operator → List α → List α → Prop
  lit : UInt32 → α
  apply_i32Const : ∀ (x : Int32) (args rs : List α), apply ⟨0x41, some (.i32 x)⟩ args rs →
    rs = [lit x.toUInt32]

/-- The interpretation that knows only literals: an `i32.const` gives its literal as a 32-bit
number, and no other operator gives anything. -/
def Interp.literals : Interp UInt32 where
  apply o _ rs := ∃ x : Int32, o = ⟨0x41, some (.i32 x)⟩ ∧ rs = [x.toUInt32]
  lit := id
  apply_i32Const := by
    rintro x args rs ⟨y, hy, rfl⟩
    cases hy
    rfl

/-- The values a run has computed: the results of each operator value run, and the value of
each parameter bound, as a one-element list. -/
abbrev Env (α : Type) := Nat → Option (List α)

/-- `env` with `v` standing for `rs`. -/
def Env.set {α : Type} (env : Env α) (v : Nat) (rs : List α) : Env α :=
  fun w => if w = v then some rs else env w

/-- `env` with the parameters `ps` bound to `args`, one each. -/
def Env.bindParams {α : Type} (env : Env α) : List Nat → List α → Env α
  | p :: ps, a :: args => (env.set p [a]).bindParams ps args
  | _, _ => env

namespace Body

variable {α : Type}

/-- The value that `v` stands for: its first result, or for a pick the result it names. -/
def read (b : Body) (env : Env α) (v : Nat) : Option α :=
  match b.values[v]? with
  | some (.pick src i _) => (env src).bind (·[i]?)
  | _ => (env v).bind List.head?

/-- Running the operators `vs` in order from `env` ends in `env'`: each reads its arguments and
gives results the interpretation allows. -/
inductive RunsOps (b : Body) (I : Interp α) : Env α → List Nat → Env α → Prop
  | nil (env : Env α) : RunsOps b I env [] env
  | cons {env env' : Env α} {v : Nat} {vs : List Nat} {o : Operator} {args : List Nat}
      {ts : List ValType} {xs rs : List α} :
      b.values[v]? = some (.operator o args ts) → args.mapM (b.read env) = some xs →
      I.apply o xs rs → RunsOps b I (env.set v rs) vs env' → RunsOps b I env (v :: vs) env'

/-- Entering block `j` with `args` in `env`, a run goes on from block to block until it returns
`rs`: the block binds its parameters, runs its operators, then returns or takes an edge. -/
inductive Returns (b : Body) (I : Interp α) : Env α → Nat → List α → List α → Prop
  | ret {env env' : Env α} {j : Nat} {args : List α} {blk : Block} {vals : List Nat} {rs : List α} :
      b.blocks[j]? = some blk → blk.params.size = args.length →
      RunsOps b I (env.bindParams blk.params.toList args) blk.insts.toList env' →
      blk.term = some (.ret vals) → vals.mapM (b.read env') = some rs → Returns b I env j args rs
  | jump {env env' : Env α} {j : Nat} {args : List α} {blk : Block} {t : Terminator} {e : Target}
      {xs rs : List α} :
      b.blocks[j]? = some blk → blk.params.size = args.length →
      RunsOps b I (env.bindParams blk.params.toList args) blk.insts.toList env' →
      blk.term = some t → e ∈ t.successors → e.args.mapM (b.read env') = some xs →
      Returns b I env' e.block xs rs → Returns b I env j args rs

/-- A run of the body from its entry block, with arguments `args`, returns `rs`. -/
def Runs (b : Body) (I : Interp α) (args rs : List α) : Prop :=
  b.Returns I (fun _ => none) b.entry args rs

/-! ## What a run computes -/

variable {b : Body} {I : Interp α}

/-- Running operators writes only their own values. -/
theorem RunsOps.frame {env env' : Env α} {vs : List Nat} (h : b.RunsOps I env vs env') {w : Nat}
    (hw : ∀ o args ts, b.values[w]? ≠ some (.operator o args ts)) : env' w = env w := by
  induction h with
  | nil => rfl
  | @cons env env' v vs o args ts xs rs hv _ _ _ ih =>
    rw [ih]
    have hwv : w ≠ v := fun hwv => hw o args ts (hwv ▸ hv)
    simp [Env.set, hwv]

/-- Binding parameters writes only the parameters. -/
theorem Env.bindParams_of_not_mem {env : Env α} {w : Nat} :
    ∀ {ps : List Nat} (args : List α), w ∉ ps → env.bindParams ps args w = env w
  | [], _, _ => rfl
  | _ :: _, [], _ => rfl
  | p :: ps, a :: args, hw => by
    rw [Env.bindParams, Env.bindParams_of_not_mem args (fun h => hw (List.mem_cons_of_mem p h))]
    simp [Env.set, List.ne_of_not_mem_cons hw]

/-- The first parameter, bound alone, stands for the argument. -/
theorem Env.bindParams_single (env : Env α) (p : Nat) (a : α) : env.bindParams [p] [a] p = some [a] := by
  simp [Env.bindParams, Env.set]

/-- Every `i32.const` value computed stands for its literal. -/
def Literals (b : Body) (I : Interp α) (env : Env α) : Prop :=
  ∀ (v : Nat) (x : Int32) (args : List Nat) (ts : List ValType) (rs : List α),
    b.values[v]? = some (.operator ⟨0x41, some (.i32 x)⟩ args ts) → env v = some rs →
    rs = [I.lit x.toUInt32]

theorem literals_empty : Literals b I fun _ => none := fun _ _ _ _ _ _ h => by cases h

/-- Running operators keeps the literals: an `i32.const` gives its literal. -/
theorem RunsOps.literals {env env' : Env α} {vs : List Nat} (h : b.RunsOps I env vs env')
    (hl : Literals b I env) : Literals b I env' := by
  induction h with
  | nil => exact hl
  | @cons env env' v vs o args ts xs rs hv _ happly _ ih =>
    refine ih fun w x args' ts' rs' hw hrs => ?_
    by_cases hwv : w = v
    · subst hwv
      rw [hv] at hw
      simp only [Option.some.injEq, ValueDef.operator.injEq] at hw
      obtain ⟨rfl, -, -⟩ := hw
      simp only [Env.set, ↓reduceIte, Option.some.injEq] at hrs
      subst hrs
      exact I.apply_i32Const x xs rs happly
    · simp only [Env.set, if_neg hwv] at hrs
      exact hl w x args' ts' rs' hw hrs

/-- Binding parameters that are no operators keeps the literals. -/
theorem Env.bindParams_literals {env : Env α} {ps : List Nat} (args : List α)
    (hps : ∀ p ∈ ps, ∀ o as ts, b.values[p]? ≠ some (.operator o as ts)) (hl : Literals b I env) :
    Literals b I (env.bindParams ps args) := by
  intro v x as ts rs hv hrs
  have hv' : v ∉ ps := fun hmem => hps v hmem _ _ _ hv
  rw [Env.bindParams_of_not_mem args hv'] at hrs
  exact hl v x as ts rs hv hrs

/-- An `i32.const` value reads as its literal. -/
theorem Literals.read {env : Env α} (hl : Literals b I env) {v : Nat} {x : Int32} {args : List Nat}
    {ts : List ValType} (hv : b.values[v]? = some (.operator ⟨0x41, some (.i32 x)⟩ args ts)) {y : α}
    (hy : b.read env v = some y) : y = I.lit x.toUInt32 := by
  simp only [Body.read, hv] at hy
  obtain ⟨rs, hrs, hy⟩ := Option.bind_eq_some_iff.mp hy
  rw [hl v x args ts rs hv hrs] at hy
  simpa using hy.symm

end Body

end WasmImage.Ssa
