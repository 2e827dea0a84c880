import WasmImage.Proofs.Leb128
import WasmImage.Proofs.Segments
import WasmImage.Wasm.ConstExpr

/-!
# Constant expressions as instructions

A constant expression is a run of instructions up to the end opcode: constants, null and
function references, reads of globals, and the i32 and i64 additions, subtractions and
multiplications. `ConstInstrs` reads bytes as instructions, and `ConstInstr.run` runs
instructions on a stack under a set of rules (`ConstRules`): the typing rules of wasm, where an
arithmetic instruction takes two operands of its own type and `ref.null` a reference type, or
the rules the evaluator checks, where the two operands need only share a type, whatever it is,
and `ref.null` takes any type byte.

The evaluator gives a value exactly when the instructions before the first end opcode run under
its rules and leave that one value; every expression well typed by the wasm rules runs under the
evaluator's to the same value, so it evaluates to it; and a read of a global the resolver does
not know, once the run reaches it, is the fault `notConstant` (`eval_const_expr`). The
evaluator's rules are strictly looser: `i64.const 1; i64.const 2; i32.add` evaluates, to the i32
value 3.

The decoder copies a constant expression by scanning it, skipping each opcode's immediate
without evaluating it. On every expression the evaluator accepts, the scan stops where the
evaluator did, right after the first end opcode the evaluator ran, so a stored initializer is
exactly the expression that was evaluated; where the scan fails, so does the evaluator
(`constExpr_scan_matches_eval`).
-/

namespace WasmImage.Wasm

open Reader

/-! ## Instructions -/

/-- The arithmetic of extended constant expressions. -/
inductive ArithOp where
  | add
  | sub
  | mul
  deriving DecidableEq, Repr

namespace ArithOp

/-- The opcode of the i32 instruction. -/
def i32Code : ArithOp → UInt8
  | add => 0x6a
  | sub => 0x6b
  | mul => 0x6c

/-- The opcode of the i64 instruction. -/
def i64Code : ArithOp → UInt8
  | add => 0x7c
  | sub => 0x7d
  | mul => 0x7e

/-- The operation on 32-bit words, modulo 2^32. -/
def on32 : ArithOp → UInt32 → UInt32 → UInt32
  | add => (· + ·)
  | sub => (· - ·)
  | mul => (· * ·)

/-- The operation on 64-bit words, modulo 2^64. -/
def on64 : ArithOp → UInt64 → UInt64 → UInt64
  | add => (· + ·)
  | sub => (· - ·)
  | mul => (· * ·)

end ArithOp

/-- An instruction of a constant expression, with its immediate. -/
inductive ConstInstr where
  | i32Const (x : Int32)
  | i64Const (x : Int64)
  | f32Const (bits : UInt32)
  | f64Const (bits : UInt64)
  | refNull (type : UInt8)
  | refFunc (idx : UInt32)
  | globalGet (idx : UInt32)
  | i32Arith (op : ArithOp)
  | i64Arith (op : ArithOp)
  deriving DecidableEq, Repr

/-- The bytes of one instruction: its opcode, then its immediate as the readers of the format
take it, overlong LEB128 forms included. -/
inductive ConstInstr.Encodes : ConstInstr → List UInt8 → Prop
  | i32Const {x : Int32} {l : List UInt8} :
      Reads Leb128.readS32 l x → Encodes (.i32Const x) (0x41 :: l)
  | i64Const {x : Int64} {l : List UInt8} :
      Reads Leb128.readS64 l x → Encodes (.i64Const x) (0x42 :: l)
  | f32Const {b : UInt32} {l : List UInt8} : Reads word32 l b → Encodes (.f32Const b) (0x43 :: l)
  | f64Const {b : UInt64} {l : List UInt8} : Reads word64 l b → Encodes (.f64Const b) (0x44 :: l)
  | refNull (t : UInt8) : Encodes (.refNull t) [0xd0, t]
  | refFunc {idx : UInt32} {l : List UInt8} :
      Reads Leb128.readU32 l idx → Encodes (.refFunc idx) (0xd2 :: l)
  | globalGet {idx : UInt32} {l : List UInt8} :
      Reads Leb128.readU32 l idx → Encodes (.globalGet idx) (0x23 :: l)
  | i32Arith (op : ArithOp) : Encodes (.i32Arith op) [op.i32Code]
  | i64Arith (op : ArithOp) : Encodes (.i64Arith op) [op.i64Code]

/-- The bytes of a run of instructions, one after another. -/
inductive ConstInstrs : List UInt8 → List ConstInstr → Prop
  | nil : ConstInstrs [] []
  | cons {i : ConstInstr} {l code : List UInt8} {is : List ConstInstr} :
      i.Encodes l → ConstInstrs code is → ConstInstrs (l ++ code) (i :: is)

theorem ConstInstr.Encodes.length_pos {i : ConstInstr} {l : List UInt8} (h : i.Encodes l) :
    0 < l.length := by
  cases h <;> simp

/-- Every instruction takes a byte at least. -/
theorem ConstInstrs.length_le {code : List UInt8} {is : List ConstInstr} (h : ConstInstrs code is) :
    is.length ≤ code.length := by
  induction h with
  | nil => exact Nat.le_refl _
  | cons hi _ ih =>
    have := hi.length_pos
    simp only [List.length_cons, List.length_append]
    omega

/-- An instruction's bytes, whatever follows them, determine the instruction and where it ends. -/
theorem ConstInstr.Encodes.unique {i i' : ConstInstr} {l l' m m' : List UInt8} (h : i.Encodes l)
    (h' : i'.Encodes l') (heq : l ++ m = l' ++ m') : i = i' ∧ l = l' := by
  -- the opcodes tell the instructions apart; an immediate is one prefix of what follows
  rcases h with hr | hr | hr | hr | t | hr | hr | (_ | _ | _) | (_ | _ | _) <;>
    rcases h' with hr' | hr' | hr' | hr' | t' | hr' | hr' | (_ | _ | _) | (_ | _ | _) <;>
    simp [ArithOp.i32Code, ArithOp.i64Code] at heq ⊢
  case refNull.refNull => exact heq.1
  all_goals exact (hr.unique hr' heq).symm

/-- The bytes of a run of instructions determine the instructions. -/
theorem ConstInstrs.unique {code : List UInt8} {is : List ConstInstr} (h : ConstInstrs code is) :
    ∀ {code' : List UInt8} {is' : List ConstInstr}, ConstInstrs code' is' → code = code' → is = is' := by
  induction h with
  | nil =>
    intro code' is' h' hc
    cases h' with
    | nil => rfl
    | cons hi' _ =>
      obtain ⟨rfl, -⟩ := List.append_eq_nil_iff.mp hc.symm
      exact absurd hi'.length_pos (Nat.lt_irrefl 0)
  | cons hi _ ih =>
    intro code' is' h' hc
    cases h' with
    | nil =>
      obtain ⟨rfl, -⟩ := List.append_eq_nil_iff.mp hc
      exact absurd hi.length_pos (Nat.lt_irrefl 0)
    | cons hi' hrest' =>
      obtain ⟨rfl, rfl⟩ := hi.unique hi' hc
      rw [ih hrest' (List.append_cancel_left hc)]

/-! ## Running instructions -/

/-- What a run checks beyond the shape of the stack. -/
structure ConstRules where
  /-- Whether an arithmetic instruction of type `t` takes operands of types `a` and `b`, the top
  one second. -/
  operands : ValType → ValType → ValType → Bool
  /-- Whether `ref.null` takes the type byte `t`. -/
  nullType : UInt8 → Bool

namespace ConstRules

/-- The typing rules of wasm: operands of the instruction's own type, null references of a
reference type. -/
def typed : ConstRules where
  operands t a b := a == t && b == t
  nullType t := t == ValType.funcref.byte || t == ValType.externref.byte

/-- The rules the evaluator checks: operands of one type, whatever it is, and null references of
any type byte. -/
def sameType : ConstRules where
  operands _ a b := a == b
  nullType _ := true

/-- `r` accepts everything `r'` accepts. -/
def Allows (r r' : ConstRules) : Prop :=
  (∀ t a b, r'.operands t a b → r.operands t a b) ∧ ∀ t, r'.nullType t → r.nullType t

theorem sameType_allows_typed : sameType.Allows typed := by
  refine ⟨fun t a b h => ?_, fun _ _ => rfl⟩
  simp only [typed, Bool.and_eq_true, beq_iff_eq] at h
  simp [sameType, h.1, h.2]

end ConstRules

namespace ConstInstr

section Run

variable (rules : ConstRules) (globals : Option GlobalLookup)

/-- One instruction on a stack, top first; `none` where the stack or the rules refuse it. -/
def exec : ConstInstr → List ConstValue → Option (List ConstValue)
  | .i32Const x, s => some (⟨.i32, x.toUInt32.toUInt64, false⟩ :: s)
  | .i64Const x, s => some (⟨.i64, x.toUInt64, false⟩ :: s)
  | .f32Const b, s => some (⟨.f32, b.toUInt64, false⟩ :: s)
  | .f64Const b, s => some (⟨.f64, b, false⟩ :: s)
  | .refNull t, s => if rules.nullType t then some (⟨⟨t⟩, 0, true⟩ :: s) else none
  | .refFunc idx, s => some (⟨.funcref, idx.toUInt64, false⟩ :: s)
  | .globalGet idx, s => (globals.bind (· idx)).map (· :: s)
  | .i32Arith op, b :: a :: s =>
    if rules.operands .i32 a.type b.type then
      some (⟨.i32, (op.on32 a.bits.toUInt32 b.bits.toUInt32).toUInt64, false⟩ :: s)
    else none
  | .i64Arith op, b :: a :: s =>
    if rules.operands .i64 a.type b.type then some (⟨.i64, op.on64 a.bits b.bits, false⟩ :: s)
    else none
  | _, _ => none

/-- Runs instructions on a stack. -/
def run : List ConstInstr → List ConstValue → Option (List ConstValue)
  | [], s => some s
  | i :: is, s => (i.exec rules globals s).bind (run is)

theorem run_cons_eq_some {i : ConstInstr} {is : List ConstInstr} {s s' : List ConstValue}
    (h : run rules globals (i :: is) s = some s') :
    ∃ s₁, i.exec rules globals s = some s₁ ∧ run rules globals is s₁ = some s' :=
  Option.bind_eq_some_iff.mp h

end Run

variable {globals : Option GlobalLookup}

/-- Looser rules refuse no instruction that stricter ones run. -/
theorem exec_of_allows {r r' : ConstRules} (hr : r.Allows r') {i : ConstInstr}
    {s s' : List ConstValue} (h : i.exec r' globals s = some s') : i.exec r globals s = some s' := by
  cases i with
  | refNull t =>
    simp only [exec] at h ⊢
    split at h
    · rw [if_pos (hr.2 t ‹_›)]
      exact h
    · cases h
  | i32Arith op =>
    match s, h with
    | b :: a :: s, h =>
      simp only [exec] at h ⊢
      split at h
      · rw [if_pos (hr.1 _ _ _ ‹_›)]
        exact h
      · cases h
  | i64Arith op =>
    match s, h with
    | b :: a :: s, h =>
      simp only [exec] at h ⊢
      split at h
      · rw [if_pos (hr.1 _ _ _ ‹_›)]
        exact h
      · cases h
  | _ => exact h

/-- Looser rules run every program stricter ones run, to the same stack. -/
theorem run_of_allows {r r' : ConstRules} (hr : r.Allows r') :
    ∀ {is : List ConstInstr} {s s' : List ConstValue}, run r' globals is s = some s' →
      run r globals is s = some s'
  | [], _, _, h => h
  | i :: is, s, s', h => by
    obtain ⟨s₁, hi, hrest⟩ := run_cons_eq_some r' globals h
    rw [run, exec_of_allows hr hi, Option.bind_some]
    exact run_of_allows hr hrest

end ConstInstr

/-! ## The evaluator runs the instructions -/

namespace ConstEval

variable {globals : Option GlobalLookup}

theorem bytes_sound_reads (n : Nat) : Sound (bytes n) fun x l => Reads (bytes n) l x :=
  (bytes_sound n).mono fun x l ⟨hl, hn⟩ => by
    subst hl hn
    have h := bytes_reads x.data.toList
    rwa [Cursor.toByteArray_data_toList] at h

theorem word32_sound : Sound word32 fun v l => Reads word32 l v := by
  unfold word32
  refine Sound.bind (bytes_sound_reads 4) fun x l hx => sound_pure ?_
  have h : Reads (bytes 4 >>= fun x => pure (littleEndian x).toUInt32) (l ++ [])
      (littleEndian x).toUInt32 := hx.bind (reads_pure _)
  exact h

theorem word64_sound : Sound word64 fun v l => Reads word64 l v := by
  unfold word64
  refine Sound.bind (bytes_sound_reads 8) fun x l hx => sound_pure ?_
  have h : Reads (bytes 8 >>= fun x => pure (littleEndian x).toUInt64) (l ++ [])
      (littleEndian x).toUInt64 := hx.bind (reads_pure _)
  exact h

theorem opcode_reads (op : UInt8) :
    Reads (Reader.lift (fun _ => ConstFault.missingEnd) byte) [op] op :=
  (byte_reads op).lift _

theorem imm_step {β : Type} {X : Reader ReadFault β} {l more : List UInt8} {b : β}
    (hX : Reads X l b) (k : β → Step ConstValue) {c : Cursor} (hv : c.pos ≤ c.bytes.size)
    (hc : c.ahead = [op] ++ (l ++ more)) :
    (rd X >>= k).runFrom (c.skip [op].length) = (k b).runFrom (c.skip (op :: l).length) := by
  rw [show rd X = Reader.lift ConstFault.read X from rfl,
    runFrom_bind_ok ((hX.lift _) _ more (Cursor.le_size_of_ahead hv hc) (Cursor.ahead_skip hc)),
    Cursor.skip_skip]
  simp [Nat.add_comm]

/-- Two operands of one type are popped as they are. -/
theorem runFrom_pop2 {a b : ConstValue} {rest : List ConstValue} (hab : a.type = b.type)
    (k : ConstValue × ConstValue × List ConstValue → Step ConstValue) (c : Cursor) :
    (evalFrom.liftExcept (pop2 (b :: a :: rest)) >>= k).runFrom c = (k (a, b, rest)).runFrom c := by
  simp only [pop2, if_pos hab]
  rfl

/-- One instruction's bytes take the evaluator one step on, to the stack its rules give. -/
theorem evalFrom_step {i : ConstInstr} {l : List UInt8} (hi : i.Encodes l) {s s' : List ConstValue}
    (hs : i.exec .sameType globals s = some s') (fuel : Nat) {c : Cursor} {more : List UInt8}
    (hv : c.pos ≤ c.bytes.size) (hc : c.ahead = l ++ more) :
    (evalFrom globals s (fuel + 1)).runFrom c = (evalFrom globals s' fuel).runFrom (c.skip l.length) := by
  rw [evalFrom.eq_def]
  cases hi with
  | i32Const hx =>
    obtain rfl := (Option.some.inj hs).symm
    exact (runFrom_bind_ok (opcode_reads 0x41 c _ hv hc)).trans (imm_step hx _ hv hc)
  | i64Const hx =>
    obtain rfl := (Option.some.inj hs).symm
    exact (runFrom_bind_ok (opcode_reads 0x42 c _ hv hc)).trans (imm_step hx _ hv hc)
  | f32Const hx =>
    obtain rfl := (Option.some.inj hs).symm
    exact (runFrom_bind_ok (opcode_reads 0x43 c _ hv hc)).trans (imm_step hx _ hv hc)
  | f64Const hx =>
    obtain rfl := (Option.some.inj hs).symm
    exact (runFrom_bind_ok (opcode_reads 0x44 c _ hv hc)).trans (imm_step hx _ hv hc)
  | refNull t =>
    obtain rfl := (Option.some.inj hs).symm
    exact (runFrom_bind_ok (opcode_reads 0xd0 c _ hv hc)).trans (imm_step (byte_reads t) _ hv hc)
  | refFunc hx =>
    obtain rfl := (Option.some.inj hs).symm
    exact (runFrom_bind_ok (opcode_reads 0xd2 c _ hv hc)).trans (imm_step hx _ hv hc)
  | globalGet hx =>
    -- a known global: its value is pushed
    obtain ⟨g, hg, rfl⟩ := Option.map_eq_some_iff.mp hs
    refine (runFrom_bind_ok (opcode_reads 0x23 c _ hv hc)).trans ((imm_step hx _ hv hc).trans ?_)
    simp only [hg]
  | i32Arith op =>
    match s, hs with
    | b :: a :: rest, hs =>
      simp only [ConstInstr.exec, ConstRules.sameType, beq_iff_eq] at hs
      split at hs
      · rename_i hab
        obtain rfl := (Option.some.inj hs).symm
        cases op <;>
          exact (runFrom_bind_ok (opcode_reads _ c _ hv hc)).trans (runFrom_pop2 hab _ _)
      · cases hs
  | i64Arith op =>
    match s, hs with
    | b :: a :: rest, hs =>
      simp only [ConstInstr.exec, ConstRules.sameType, beq_iff_eq] at hs
      split at hs
      · rename_i hab
        obtain rfl := (Option.some.inj hs).symm
        cases op <;>
          exact (runFrom_bind_ok (opcode_reads _ c _ hv hc)).trans (runFrom_pop2 hab _ _)
      · cases hs

/-- The bytes of a run of instructions take the evaluator as many steps on, to the stack the run
gives. -/
theorem evalFrom_instrs {code : List UInt8} {is : List ConstInstr} (h : ConstInstrs code is) :
    ∀ {s s' : List ConstValue}, ConstInstr.run .sameType globals is s = some s' →
      ∀ (fuel : Nat) {c : Cursor} {more : List UInt8}, c.pos ≤ c.bytes.size → c.ahead = code ++ more →
        (evalFrom globals s (fuel + is.length)).runFrom c =
          (evalFrom globals s' fuel).runFrom (c.skip code.length) := by
  induction h with
  | nil =>
    intro s s' hrun fuel c more _ _
    cases hrun
    rfl
  | cons hi _ ih =>
    intro s s' hrun fuel c more hv hc
    obtain ⟨s₁, hs₁, hrest⟩ := ConstInstr.run_cons_eq_some _ _ hrun
    rw [List.append_assoc] at hc
    rw [List.length_cons, ← Nat.add_assoc, evalFrom_step hi hs₁ _ hv hc,
      ih hrest fuel (Cursor.le_size_of_ahead hv hc) (Cursor.ahead_skip hc), Cursor.skip_skip,
      List.length_append]

/-- The end opcode on a stack of one value gives that value. -/
theorem evalFrom_end (v : ConstValue) (fuel : Nat) :
    Reads (evalFrom globals [v] (fuel + 1)) [0x0b] v := by
  rw [evalFrom]
  exact (opcode_reads 0x0b).bind_last (reads_pure v)

/-- A read of a global whose value is not known fails, as not constant. -/
theorem evalFrom_unknown {s : List ConstValue} {l more : List UInt8} {idx : UInt32}
    (hidx : Reads Leb128.readU32 l idx) (hunknown : globals.bind (· idx) = none) (fuel : Nat)
    {c : Cursor} (hv : c.pos ≤ c.bytes.size) (hc : c.ahead = 0x23 :: (l ++ more)) :
    ((evalFrom globals s (fuel + 1)).runFrom c).1 = .error .notConstant := by
  rw [evalFrom.eq_def]
  rw [(runFrom_bind_ok (opcode_reads 0x23 c _ hv hc)).trans ((imm_step hidx _ hv hc))]
  simp only [hunknown]
  rfl

/-- `l` runs from the stack `s` to the one value `v`: instructions, then the end opcode. -/
def RunsTo (globals : Option GlobalLookup) (s : List ConstValue) (v : ConstValue)
    (l : List UInt8) : Prop :=
  ∃ code is, l = code ++ [0x0b] ∧ ConstInstrs code is ∧
    ConstInstr.run .sameType globals is s = some [v]

/-- One more instruction in front. -/
theorem RunsTo.cons {s s' : List ConstValue} {l l' : List UInt8} {v : ConstValue}
    {i : ConstInstr} (hi : i.Encodes l) (hs : i.exec .sameType globals s = some s')
    (h : RunsTo globals s' v l') : RunsTo globals s v (l ++ l') := by
  obtain ⟨code, is, rfl, hcode, hrun⟩ := h
  refine ⟨l ++ code, i :: is, by rw [List.append_assoc], .cons hi hcode, ?_⟩
  rw [ConstInstr.run, hs, Option.bind_some]
  exact hrun

theorem pop2_eq_ok {s : List ConstValue} {a b : ConstValue} {rest : List ConstValue}
    (h : pop2 s = .ok (a, b, rest)) : s = b :: a :: rest ∧ a.type = b.type := by
  unfold pop2 at h
  split at h
  · split at h
    · injection h with h
      simp only [Prod.mk.injEq] at h
      obtain ⟨rfl, rfl, rfl⟩ := h
      exact ⟨rfl, ‹_›⟩
    · cases h
  · cases h

theorem i32Op_code (op : ArithOp) (x y : UInt32) : i32Op op.i32Code x y = op.on32 x y := by
  cases op <;> rfl

theorem i64Op_code (op : ArithOp) (x y : UInt64) : i64Op op.i64Code x y = op.on64 x y := by
  cases op <;> rfl

section Sound

variable {s : List ConstValue} {fuel : Nat}
  (ih : ∀ s', Sound (evalFrom globals s' fuel) (RunsTo globals s'))
include ih

/-- An instruction with an immediate, then the rest of the expression. -/
theorem sound_imm {β : Type} {X : Reader ReadFault β} {P : β → List UInt8 → Prop}
    (hX : Sound X P) {op : UInt8} (mk : β → ConstInstr)
    (henc : ∀ b l, P b l → (mk b).Encodes (op :: l))
    {push : β → List ConstValue} (hexec : ∀ b, (mk b).exec .sameType globals s = some (push b)) :
    Sound (rd X >>= fun b => evalFrom globals (push b) fuel) fun v l => RunsTo globals s v ([op] ++ l) :=
  Sound.bind (hX.lift _) fun b l₁ hb => (ih (push b)).mono fun _ _ hrun => by
    have h := hrun.cons (henc b l₁ hb) (hexec b)
    exact h

/-- An instruction on two operands, then the rest of the expression: the evaluator pops two values
of one type, which is all the same-type rules ask of them. -/
theorem sound_binary {i : ConstInstr} {code : UInt8} (henc : i.Encodes [code])
    (f : ConstValue → ConstValue → ConstValue)
    (hexec : ∀ a b rest, a.type = b.type →
      i.exec .sameType globals (b :: a :: rest) = some (f a b :: rest)) :
    Sound (evalFrom.liftExcept (pop2 s) >>= fun x => evalFrom globals (f x.1 x.2.1 :: x.2.2) fuel)
      fun v l => RunsTo globals s v ([code] ++ l) := by
  cases hp : pop2 s with
  | error e => exact Fails.sound ((fails_throw e).bind _)
  | ok x =>
    obtain ⟨a, b, rest⟩ := x
    obtain ⟨rfl, hab⟩ := pop2_eq_ok hp
    exact (ih _).mono fun v l hrun => hrun.cons henc (hexec a b rest hab)

/-- An i32 arithmetic instruction, then the rest of the expression. -/
theorem sound_i32Arith (op : ArithOp) :
    Sound (evalFrom.liftExcept (pop2 s) >>= fun x => evalFrom globals
        (⟨.i32, (i32Op op.i32Code x.1.bits.toUInt32 x.2.1.bits.toUInt32).toUInt64, false⟩ :: x.2.2) fuel)
      fun v l => RunsTo globals s v ([op.i32Code] ++ l) :=
  sound_binary ih (.i32Arith op)
    (fun a b => ⟨.i32, (i32Op op.i32Code a.bits.toUInt32 b.bits.toUInt32).toUInt64, false⟩)
    fun a b rest hab => by
      simp only [ConstInstr.exec, ConstRules.sameType, hab, beq_self_eq_true, if_true, i32Op_code]

/-- An i64 arithmetic instruction, then the rest of the expression. -/
theorem sound_i64Arith (op : ArithOp) :
    Sound (evalFrom.liftExcept (pop2 s) >>= fun x => evalFrom globals
        (⟨.i64, i64Op op.i64Code x.1.bits x.2.1.bits, false⟩ :: x.2.2) fuel)
      fun v l => RunsTo globals s v ([op.i64Code] ++ l) :=
  sound_binary ih (.i64Arith op) (fun a b => ⟨.i64, i64Op op.i64Code a.bits b.bits, false⟩)
    fun a b rest hab => by
      simp only [ConstInstr.exec, ConstRules.sameType, hab, beq_self_eq_true, if_true, i64Op_code]

end Sound

theorem sound_evalFrom : ∀ (fuel : Nat) (s : List ConstValue),
    Sound (evalFrom globals s fuel) (RunsTo globals s)
  | 0, s => by
    rw [evalFrom]
    exact sound_throw
  | fuel + 1, s => by
    have ih := sound_evalFrom fuel
    rw [evalFrom.eq_def]
    refine Sound.bind (byte_sound.lift _) fun op l₁ hl₁ => ?_
    subst hl₁
    dsimp only
    split
    · -- the end: one value left
      split
      · exact sound_pure ⟨[], [], rfl, .nil, rfl⟩
      · exact sound_throw
    · exact sound_imm ih Leb128.readS32_sound ConstInstr.i32Const (fun _ _ hx => .i32Const hx)
        fun _ => rfl
    · exact sound_imm ih Leb128.readS64_sound ConstInstr.i64Const (fun _ _ hx => .i64Const hx)
        fun _ => rfl
    · exact sound_imm ih word32_sound ConstInstr.f32Const (fun _ _ hx => .f32Const hx) fun _ => rfl
    · exact sound_imm ih word64_sound ConstInstr.f64Const (fun _ _ hx => .f64Const hx) fun _ => rfl
    · refine sound_imm ih byte_sound ConstInstr.refNull (fun t l ht => ?_) fun _ => rfl
      subst ht
      exact .refNull t
    · exact sound_imm ih (Leb128.readU32_sound.mono fun _ _ h => h.1) ConstInstr.refFunc
        (fun _ _ hx => .refFunc hx) fun _ => rfl
    · -- a read of a global: known, or not constant
      refine Sound.bind ((Leb128.readU32_sound.mono fun _ _ h => h.1).lift _) fun idx l₂ hidx => ?_
      split
      · rename_i g hg
        have hexec : (ConstInstr.globalGet idx).exec .sameType globals s = some (g :: s) := by
          simp [ConstInstr.exec, hg]
        refine (ih _).mono fun _ _ hrun => ?_
        have h := hrun.cons (.globalGet hidx) hexec
        exact h
      · exact sound_throw
    · exact sound_i32Arith ih .add
    · exact sound_i32Arith ih .sub
    · exact sound_i32Arith ih .mul
    · exact sound_i64Arith ih .add
    · exact sound_i64Arith ih .sub
    · exact sound_i64Arith ih .mul
    · exact sound_throw

end ConstEval

/-! ## Evaluating a constant expression -/

open ConstEval

variable {globals : Option GlobalLookup}

/-- A value of the evaluator is that of a run of the instructions before an end opcode. -/
theorem runs_of_eval {e : ByteArray} {v : ConstValue} (h : ConstValue.eval e globals = .ok v) :
    ∃ code is rest, e.data.toList = code ++ 0x0b :: rest ∧ ConstInstrs code is ∧
      ConstInstr.run .sameType globals is [] = some [v] := by
  unfold ConstValue.eval at h
  rw [run_eq_runFrom] at h
  rcases hrun : (evalFrom globals [] (e.size + 1)).runFrom (Cursor.ofBytes e) with ⟨res, c⟩
  rw [hrun] at h
  subst h
  obtain ⟨l, -, hahead, code, is, rfl, hcode, hv⟩ :=
    sound_evalFrom _ _ (Cursor.ofBytes e) v c (Nat.zero_le _) hrun
  refine ⟨code, is, c.ahead, ?_, hcode, hv⟩
  rw [← Cursor.ofBytes_ahead, hahead, List.append_assoc]
  rfl

/-- The instructions before an end opcode, run to one value, give it to the evaluator. -/
theorem eval_of_runs {e : ByteArray} {code rest : List UInt8} {is : List ConstInstr}
    {v : ConstValue} (he : e.data.toList = code ++ 0x0b :: rest) (hcode : ConstInstrs code is)
    (hrun : ConstInstr.run .sameType globals is [] = some [v]) :
    ConstValue.eval e globals = .ok v := by
  -- the fuel, one more than the bytes, outlasts the instructions and the end
  have hsize : e.size = code.length + 1 + rest.length := by
    have := congrArg List.length he
    simp only [Array.length_toList, ByteArray.size_data, List.length_append, List.length_cons] at this
    omega
  have hlen := hcode.length_le
  have hc : (Cursor.ofBytes e).ahead = code ++ (0x0b :: rest) := by rw [Cursor.ofBytes_ahead, he]
  unfold ConstValue.eval
  rw [run_eq_runFrom, show e.size + 1 = (e.size - is.length + 1) + is.length by omega,
    evalFrom_instrs hcode hrun _ (Nat.zero_le _) hc,
    evalFrom_end v _ _ rest (Cursor.le_size_of_ahead (Nat.zero_le _) hc) (Cursor.ahead_skip hc)]

/-- The instructions before a read of an unknown global, run, make the evaluator fail as not
constant. -/
theorem eval_of_unknown {e : ByteArray} {code idxb rest : List UInt8} {is : List ConstInstr}
    {idx : UInt32} {s : List ConstValue} (he : e.data.toList = code ++ 0x23 :: (idxb ++ rest))
    (hcode : ConstInstrs code is) (hrun : ConstInstr.run .sameType globals is [] = some s)
    (hidx : Reads Leb128.readU32 idxb idx) (hunknown : globals.bind (· idx) = none) :
    ConstValue.eval e globals = .error .notConstant := by
  have hsize : e.size = code.length + 1 + idxb.length + rest.length := by
    have := congrArg List.length he
    simp only [Array.length_toList, ByteArray.size_data, List.length_append, List.length_cons] at this
    omega
  have hlen := hcode.length_le
  have hc : (Cursor.ofBytes e).ahead = code ++ (0x23 :: (idxb ++ rest)) := by
    rw [Cursor.ofBytes_ahead, he]
  unfold ConstValue.eval
  rw [run_eq_runFrom, show e.size + 1 = (e.size - is.length + 1) + is.length by omega,
    evalFrom_instrs hcode hrun _ (Nat.zero_le _) hc]
  exact evalFrom_unknown hidx hunknown _ (Cursor.le_size_of_ahead (Nat.zero_le _) hc)
    (Cursor.ahead_skip hc)

/-- The evaluator gives a value exactly when the instructions before the first end opcode run
under its rules, an operator's two operands sharing a type, to that one value; so every
expression well typed by the wasm rules evaluates to its value; and a read of a global the
resolver does not know, once the run reaches it, fails as not constant. -/
theorem eval_const_expr (e : ByteArray) (globals : Option GlobalLookup) :
    (∀ v, ConstValue.eval e globals = .ok v ↔
      ∃ code is rest, e.data.toList = code ++ 0x0b :: rest ∧ ConstInstrs code is ∧
        ConstInstr.run .sameType globals is [] = some [v]) ∧
    (∀ code is rest v, e.data.toList = code ++ 0x0b :: rest → ConstInstrs code is →
      ConstInstr.run .typed globals is [] = some [v] → ConstValue.eval e globals = .ok v) ∧
    (∀ code is idxb idx rest s, e.data.toList = code ++ 0x23 :: (idxb ++ rest) →
      ConstInstrs code is → ConstInstr.run .sameType globals is [] = some s →
      Reads Leb128.readU32 idxb idx → globals.bind (· idx) = none →
      ConstValue.eval e globals = .error .notConstant) := by
  refine ⟨fun v => ⟨runs_of_eval, ?_⟩, fun code is rest v he hcode htyped => ?_,
    fun code is idxb idx rest s he hcode hrun hidx hunknown => eval_of_unknown he hcode hrun hidx hunknown⟩
  · rintro ⟨code, is, rest, he, hcode, hrun⟩
    exact eval_of_runs he hcode hrun
  · exact eval_of_runs he hcode (ConstInstr.run_of_allows ConstRules.sameType_allows_typed htyped)

/-- `i64.const 1; i64.const 2; i32.add; end`: ill typed, `i32.add` taking i32 operands. -/
def mixedAdd : ByteArray := ⟨#[0x42, 1, 0x42, 2, 0x6a, 0x0b]⟩

/-- The instructions `mixedAdd` spells before its end. -/
theorem mixedAdd_instrs :
    ConstInstrs [0x42, 1, 0x42, 2, 0x6a] [.i64Const 1, .i64Const 2, .i32Arith .add] :=
  .cons (.i64Const (Leb128.readS64_small 1 (by decide) (by decide)))
    (.cons (.i64Const (Leb128.readS64_small 2 (by decide) (by decide))) (.cons (.i32Arith .add) .nil))

/-- `i32.const 1; i32.const 2; i32.add; end`. -/
def typedAdd : ByteArray := ⟨#[0x41, 1, 0x41, 2, 0x6a, 0x0b]⟩

/-- `global.get 0; end`. -/
def firstGlobal : ByteArray := ⟨#[0x23, 0, 0x0b]⟩

/-- The ill-typed sum evaluates, to the i32 value 3, where the wasm rules refuse it; the typed one
evaluates to 3; and without a resolver a global read is not constant. -/
theorem eval_const_expr_mixed_add :
    ConstValue.eval mixedAdd none = .ok ⟨.i32, 3, false⟩ ∧
      ConstInstr.run .typed none [.i64Const 1, .i64Const 2, .i32Arith .add] [] = none ∧
      ConstValue.eval typedAdd none = .ok ⟨.i32, 3, false⟩ ∧
      ConstValue.eval firstGlobal none = .error .notConstant := by
  have hmixed := (eval_const_expr mixedAdd none).1 ⟨.i32, 3, false⟩
  have htyped := (eval_const_expr typedAdd none).2.1
  have hglobal := (eval_const_expr firstGlobal none).2.2
  refine ⟨hmixed.mpr ⟨[0x42, 1, 0x42, 2, 0x6a], _, [], rfl,
      mixedAdd_instrs, by decide⟩,
    by decide, htyped [0x41, 1, 0x41, 2, 0x6a] _ [] _ rfl
      (.cons (.i32Const (Leb128.readS32_small 1 (by decide) (by decide)))
        (.cons (.i32Const (Leb128.readS32_small 2 (by decide) (by decide))) (.cons (.i32Arith .add) .nil)))
      (by decide),
    hglobal [] [] [0] 0 [0x0b] [] rfl .nil rfl Leb128.readU32_zero rfl⟩

/-- The ill-typed sum evaluates, to the i32 value 3, though no reading of its bytes runs under the
wasm typing rules: `i32.add` takes the two i64 operands. -/
theorem eval_accepts_ill_typed_add :
    ConstValue.eval mixedAdd none = .ok ⟨.i32, 3, false⟩ ∧
      ¬ ∃ code is rest v, mixedAdd.data.toList = code ++ 0x0b :: rest ∧ ConstInstrs code is ∧
        ConstInstr.run .typed none is [] = some [v] := by
  refine ⟨eval_of_runs rfl mixedAdd_instrs (by decide), ?_⟩
  rintro ⟨code, is, rest, v, he, hcode, hrun⟩
  -- the last byte is the only end opcode, so the instructions are those of `mixedAdd_instrs`
  have hsplit : code = [0x42, 1, 0x42, 2, 0x6a] := by
    change [0x42, 1, 0x42, 2, 0x6a, 0x0b] = code ++ 0x0b :: rest at he
    rcases code with _ | ⟨a, _ | ⟨b, _ | ⟨c, _ | ⟨d, _ | ⟨e, _ | ⟨f, code⟩⟩⟩⟩⟩⟩ <;> simp at he
    obtain ⟨rfl, rfl, rfl, rfl, rfl, -⟩ := he
    rfl
  subst hsplit
  have hnone : ConstInstr.run .typed none [.i64Const 1, .i64Const 2, .i32Arith .add] [] = none := by
    decide
  rw [hcode.unique mixedAdd_instrs rfl, hnone] at hrun
  cases hrun

end WasmImage.Wasm

/-! ## The decoder's scan stops where the evaluator does -/

namespace WasmImage.Reader

/-- A read that takes `n` bytes wherever it succeeds took `n` bytes of any list it reads. -/
theorem Reads.length_eq {ε α : Type} {r : Reader ε α} {l : List UInt8} {a : α} {n : Nat}
    (h : Reads r l a) (hn : Sound r fun _ l' => l'.length = n) : l.length = n := by
  have hc : (Cursor.ofBytes l.toByteArray).ahead = l ++ [] := by
    simp [List.data_toByteArray]
  obtain ⟨l', hskip, -, hl'⟩ := hn _ a _ (Nat.zero_le _) (h _ [] (Nat.zero_le _) hc)
  have hpos := congrArg Cursor.pos hskip
  simp only [Cursor.skip_pos] at hpos
  omega

/-- Bytes that a read of `n` bytes wherever it succeeds reads, `bytes n` reads as well. -/
theorem Reads.fixedBytes {α : Type} {r : Reader ReadFault α} {l : List UInt8} {a : α} {n : Nat}
    (h : Reads r l a) (hn : Sound r fun _ l' => l'.length = n) : Reads (bytes n) l l.toByteArray :=
  h.length_eq hn ▸ bytes_reads l

theorem word32_length : Sound word32 fun _ l => l.length = 4 :=
  Sound.bind (bytes_sound 4) fun _ _ hx => sound_pure (by simpa using hx.2)

theorem word64_length : Sound word64 fun _ l => l.length = 8 :=
  Sound.bind (bytes_sound 8) fun _ _ hx => sound_pure (by simpa using hx.2)

/-- A read whose value is dropped, as the scan drops an immediate, reads the same bytes. -/
theorem Reads.skipped {α : Type} {r : Reader ReadFault α} {l : List UInt8} {a : α} (h : Reads r l a) :
    Reads (Wasm.Decode.rd r >>= fun _ => pure () : Wasm.Decode.Step Unit) l () :=
  (h.lift _).bind_last (reads_pure ())

end WasmImage.Reader

namespace WasmImage.Wasm

open Reader ConstEval

variable {globals : Option GlobalLookup}

section Scan

open Decode

/-- An instruction's bytes are an opcode other than end, then an immediate that the scan skips. -/
theorem ConstInstr.Encodes.scans {i : ConstInstr} {l : List UInt8} (h : i.Encodes l) :
    ∃ op imm, l = op :: imm ∧ op ≠ 0x0b ∧ Reads (constImmediate op) imm () := by
  cases h with
  | i32Const hx => exact ⟨0x41, _, rfl, by decide, hx.skipped⟩
  | i64Const hx => exact ⟨0x42, _, rfl, by decide, hx.skipped⟩
  | f32Const hx => exact ⟨0x43, _, rfl, by decide, (hx.fixedBytes word32_length).skipped⟩
  | f64Const hx => exact ⟨0x44, _, rfl, by decide, (hx.fixedBytes word64_length).skipped⟩
  | refNull t => exact ⟨0xd0, [t], rfl, by decide, (byte_reads t).skipped⟩
  | refFunc hx => exact ⟨0xd2, _, rfl, by decide, hx.skipped⟩
  | globalGet hx => exact ⟨0x23, _, rfl, by decide, hx.skipped⟩
  | i32Arith op => cases op <;> exact ⟨_, [], rfl, by decide, reads_pure ()⟩
  | i64Arith op => cases op <;> exact ⟨_, [], rfl, by decide, reads_pure ()⟩

/-- The instructions before an end opcode, with it, are a constant expression as the decoder
scans one. -/
theorem ConstInstrs.scan {code : List UInt8} {is : List ConstInstr} (h : ConstInstrs code is) :
    ConstScan (code ++ [0x0b]) := by
  induction h with
  | nil => exact .done
  | cons hi _ ih =>
    obtain ⟨op, imm, rfl, hop, himm⟩ := hi.scans
    rw [List.append_assoc, List.cons_append]
    exact .step hop himm ih

end Scan

/-- A run to one value reads its instructions and the end opcode, and stops right after them. -/
theorem ConstEval.RunsTo.reads {s : List ConstValue} {v : ConstValue} {l : List UInt8}
    (h : RunsTo globals s v l) : ∀ fuel, l.length ≤ fuel → Reads (evalFrom globals s fuel) l v := by
  obtain ⟨code, is, rfl, hcode, hrun⟩ := h
  intro fuel hfuel c rest hv hc
  have hlen := hcode.length_le
  rw [List.length_append, List.length_singleton] at hfuel
  rw [List.append_assoc] at hc
  -- the instructions take one step each, then the end opcode one more
  rw [show fuel = (fuel - is.length - 1 + 1) + is.length by omega,
    evalFrom_instrs hcode hrun _ hv hc,
    evalFrom_end v _ _ rest (Cursor.le_size_of_ahead hv hc) (Cursor.ahead_skip hc), Cursor.skip_skip,
    List.length_append, List.length_singleton]

/-- Where the evaluator gives a value, it has read the expression up to and including the first
end opcode it ran, and stopped there; the decoder's scan, from the start of those bytes and
whatever follows them, copies exactly them and stops there too. So where the scan fails, the
evaluator fails as well. -/
theorem constExpr_scan_matches_eval (e : ByteArray) (globals : Option GlobalLookup) :
    (∀ v, ConstValue.eval e globals = .ok v →
      ∃ p rest, e.data.toList = p ++ rest ∧
        Reads (ConstEval.evalFrom globals [] (e.size + 1)) p v ∧
        Reads Decode.constExpr p p.toByteArray) ∧
    (∀ err c, Decode.constExpr.run e = (.error err, c) →
      ∃ fault, ConstValue.eval e globals = .error fault) := by
  have hscan : ∀ v, ConstValue.eval e globals = .ok v →
      ∃ p rest, e.data.toList = p ++ rest ∧
        Reads (ConstEval.evalFrom globals [] (e.size + 1)) p v ∧
        Reads Decode.constExpr p p.toByteArray := by
    intro v hv
    obtain ⟨code, is, rest, he, hcode, hrun⟩ := runs_of_eval hv
    have hp : e.data.toList = (code ++ [0x0b]) ++ rest := by
      rw [he, List.append_assoc]
      rfl
    have hlen : (code ++ [0x0b]).length ≤ e.size + 1 := by
      have := congrArg List.length hp
      simp only [Array.length_toList, ByteArray.size_data, List.length_append] at this ⊢
      omega
    exact ⟨code ++ [0x0b], rest, hp, RunsTo.reads ⟨code, is, rfl, hcode, hrun⟩ _ hlen,
      Decode.constExpr_reads hcode.scan⟩
  refine ⟨hscan, fun err c hfail => ?_⟩
  cases hev : ConstValue.eval e globals with
  | error fault => exact ⟨fault, rfl⟩
  | ok v =>
    -- the scan reads what the evaluator read, so it cannot have failed
    obtain ⟨p, rest, hp, -, hread⟩ := hscan v hev
    have hok := hread (Cursor.ofBytes e) rest (Nat.zero_le _) (by rw [Cursor.ofBytes_ahead, hp])
    rw [← run_eq_runFrom, hfail] at hok
    cases hok

/-- `i32.const 11; end`, then an `i64.const` with no immediate: the byte after the opcode is an
immediate that happens to equal the end opcode. -/
def elevenThenEnd : ByteArray := ⟨#[0x41, 0x0b, 0x0b, 0x42]⟩

/-- The evaluator gives 11, and the scan copies the three bytes up to the end opcode the evaluator
ran, not up to the first byte equal to it, and stops before the truncated instruction. -/
theorem constExpr_scan_eleven :
    ConstValue.eval elevenThenEnd none = .ok ⟨.i32, 11, false⟩ ∧
      Decode.constExpr.run elevenThenEnd = (.ok ⟨#[0x41, 0x0b, 0x0b]⟩, ⟨elevenThenEnd, 3⟩) := by
  have hev : ConstValue.eval elevenThenEnd none = .ok ⟨.i32, 11, false⟩ := by cbv
  obtain ⟨p, rest, hp, hrun, hread⟩ := (constExpr_scan_matches_eval elevenThenEnd none).1 _ hev
  have hahead : (Cursor.ofBytes elevenThenEnd).ahead = p ++ rest := by rw [Cursor.ofBytes_ahead, hp]
  -- the evaluator stops after three bytes, so those are the bytes it read
  have hstop : (ConstEval.evalFrom none [] (elevenThenEnd.size + 1)).run elevenThenEnd =
      (.ok ⟨.i32, 11, false⟩, ⟨elevenThenEnd, 3⟩) := by cbv
  have h := hrun _ rest (Nat.zero_le _) hahead
  rw [← run_eq_runFrom, hstop] at h
  have hlen : p.length = 3 := by
    injection h with _ hc
    injection hc with _ hpos
    simpa [Cursor.ofBytes] using hpos.symm
  have hp3 : p = [0x41, 0x0b, 0x0b] := by
    have := congrArg (List.take 3) hp
    rw [List.take_left' hlen] at this
    exact this.symm
  subst hp3
  refine ⟨hev, ?_⟩
  rw [run_eq_runFrom, hread _ rest (Nat.zero_le _) hahead]
  rfl

end WasmImage.Wasm
