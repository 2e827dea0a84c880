import WasmImage.Proofs.BodyRuns
import WasmImage.Proofs.Resolution
import WasmImage.Proofs.RoundTrip
import WasmImage.View.Constant

/-!
# Exported constants

The extractor of exported constants takes for granted what lowering builds, and panics where it
does not hold. It holds of every view a module resolves to:

* every `i32.const` the decoder reads holds a 32-bit literal
  (`Instr.decodeAll_carriesLiteral`), and so does the zero a local starts with, so every lowered
  body is `Lowered` with `CarriesLiteral` operators (`Body.lower_lowered`);
* the function an export names with type `[] → [i32]` exists, with that type, in the raw module
  too (`exportedFunc?_funcType`, `ofModule_funcType`), so its body returns one value;
* a lowered body returning one value is read without failing (`returnedConstant_ok`).

The extractor finds `c` exactly in a body of one of two shapes (`ReturnsLiteral`,
`returnedConstant_eq_some`), and in either every run of the body that returns, returns `[c]`,
whatever the operators compute (`ReturnsLiteral.runs`): the literal is the only value its
`i32.const` gives, and the parameter returned by the target of the branch is bound to it and
written by nothing else.
-/

namespace WasmImage

open Wasm Logged

/-! ## Literals of decoded and lowered bodies -/

namespace Ssa

/-- An `i32.const` operator holds a 32-bit literal. -/
def Operator.CarriesLiteral (o : Operator) : Prop := o.op = 0x41 → ∃ x, o.imm = some (.i32 x)

/-- The zero a local starts with is made by an operator that holds its literal. -/
theorem zeroOperator_carriesLiteral {t : Wasm.ValType} {z : Operator} (h : zeroOperator t = some z) :
    z.CarriesLiteral := by
  intro hop
  unfold zeroOperator at h
  split at h <;> cases h
  · exact ⟨0, rfl⟩
  all_goals simp at hop

end Ssa

namespace Wasm.InstrDecode

open Reader

/-- An `i32.const` reads its literal as a 32-bit number. -/
theorem immediate_i32Const {c c' : Cursor} {imm : Option Imm}
    (h : (immediate 0x41).runFrom c = (.ok imm, c')) : ∃ x, imm = some (.i32 x) := by
  simp only [immediate] at h
  obtain ⟨x, c₁, -, h⟩ := runFrom_bind_eq_ok h
  have h : ((.ok (some (.i32 x)), c₁) : Except ImmFault (Option Imm) × Cursor) = (.ok imm, c') := h
  simp only [Prod.mk.injEq, Except.ok.injEq] at h
  exact ⟨x, h.1.symm⟩

/-- Every `i32.const` decoded holds its literal. -/
theorem instrsFrom_carriesLiteral : ∀ (fuel : Nat) {acc r : Array Instr} {c c' : Cursor},
    (∀ ins ∈ acc, Ssa.Operator.CarriesLiteral ⟨ins.op, ins.imm⟩) →
    (instrsFrom acc fuel).runFrom c = (.ok r, c') →
      ∀ ins ∈ r, Ssa.Operator.CarriesLiteral ⟨ins.op, ins.imm⟩
  | 0, acc, r, c, c', hacc, h => by
    simp only [instrsFrom, runFrom_pure, Prod.mk.injEq, Except.ok.injEq] at h
    exact h.1 ▸ hacc
  | fuel + 1, acc, r, c, c', hacc, h => by
    simp only [instrsFrom] at h
    obtain ⟨n, c₁, -, h⟩ := runFrom_bind_eq_ok h
    split at h
    · simp only [runFrom_pure, Prod.mk.injEq, Except.ok.injEq] at h
      exact h.1 ▸ hacc
    obtain ⟨offset, c₂, -, h⟩ := runFrom_bind_eq_ok h
    obtain ⟨op, c₃, -, h⟩ := runFrom_bind_eq_ok h
    obtain ⟨imm, c₄, himm, h⟩ := runFrom_bind_eq_ok h
    refine instrsFrom_carriesLiteral fuel (fun ins hins => ?_) h
    rcases Array.mem_push.mp hins with hins | rfl
    · exact hacc ins hins
    · -- the instruction just read: its immediate is the one read for its opcode
      rintro (rfl : op = 0x41)
      rw [runFrom_lift, Prod.mk.injEq] at himm
      exact immediate_i32Const (Prod.ext (mapError_eq_ok himm.1) himm.2)

end Wasm.InstrDecode

/-- Every `i32.const` of a decoded body holds its literal. -/
theorem Wasm.Instr.decodeAll_carriesLiteral {code : ByteArray} {instrs : List Instr}
    (h : Instr.decodeAll code = .ok instrs) :
    ∀ ins ∈ instrs, Ssa.Operator.CarriesLiteral ⟨ins.op, ins.imm⟩ := by
  unfold Instr.decodeAll at h
  rcases hr : (InstrDecode.instrsFrom #[] code.size).run code with ⟨_ | r, c⟩ <;> rw [hr] at h
  · cases h
  · cases h
    intro ins hins
    exact InstrDecode.instrsFrom_carriesLiteral code.size (by simp) hr ins (by simpa using hins)

namespace Ssa.Body

/-- Every body lowering gives is lowered with operators that hold their literals, and returns
the results of the type the module gives the function. -/
theorem lower_lowered {m : Module} {f : UInt32} {body : Body} (h : Body.lower m f = .ok body) :
    body.Lowered Operator.CarriesLiteral ∧ ∃ sig, m.funcType? f = some sig ∧ body.results = sig.results := by
  obtain ⟨sig, code, instrs, hsig, hinstrs, hbody⟩ := lower_ofCode h
  have hlit := Instr.decodeAll_carriesLiteral hinstrs
  -- calls carry the immediate of the instruction they come from, never an `i32.const` opcode
  have hcall : ∀ (op : UInt8) (imm : Option Imm), op ≠ 0x41 → Operator.CarriesLiteral ⟨op, imm⟩ :=
    fun _ _ hop h => absurd h hop
  obtain ⟨hl, hres⟩ := ofCode_lowered (fun _ _ hz => zeroOperator_carriesLiteral hz)
    (fun ins hins => ⟨hlit ins hins, hcall _ _ (by decide), hcall _ _ (by decide)⟩) hbody
  exact ⟨hl, sig, hsig, hres⟩

end Ssa.Body

/-! ## Reading the constant -/

section CheckedGet

variable {α : Type} {xs : Array α} {i : Nat} {x : α}

theorem checkedGet_of_getElem? (h : xs[i]? = some x) : checkedGet xs i = .ok x := by
  simp [checkedGet, h]

theorem getElem?_of_checkedGet (h : checkedGet xs i = .ok x) : xs[i]? = some x := by
  unfold checkedGet at h
  split at h <;> cases h
  assumption

end CheckedGet

namespace Ssa.Body

variable {b : Body}

/-- The literal of a made value is read without failing when every `i32.const` holds one. -/
theorem i32Const_ok (hl : b.Lowered Operator.CarriesLiteral) {v : Nat} (hv : v < b.values.size) :
    ∃ r, b.i32Const v = .ok r := by
  unfold i32Const
  rw [checkedGet_of_getElem? (Array.getElem?_eq_getElem hv), ok_bind]
  split
  · rename_i imm args ts hdef
    obtain ⟨x, rfl⟩ := hl.ops v _ args ts (by rw [Array.getElem?_eq_getElem hv, hdef]) rfl
    exact ⟨_, rfl⟩
  · exact ⟨none, rfl⟩

/-- A literal read is the literal of an `i32.const`. -/
theorem i32Const_eq_some {v : Nat} {c : UInt32} (h : b.i32Const v = .ok (some c)) :
    ∃ x args ts, b.values[v]? = some (.operator ⟨0x41, some (.i32 x)⟩ args ts) ∧ c = x.toUInt32 := by
  unfold i32Const at h
  obtain ⟨d, hd, h⟩ := bind_eq_ok h
  split at h
  · rename_i imm args ts
    split at h
    · rename_i x
      cases h
      exact ⟨x, args, ts, getElem?_of_checkedGet hd, rfl⟩
    all_goals cases h
  · cases h

theorem i32Const_of_getElem? {v : Nat} {x : Int32} {args : List Nat} {ts : List Wasm.ValType}
    (h : b.values[v]? = some (.operator ⟨0x41, some (.i32 x)⟩ args ts)) :
    b.i32Const v = .ok (some x.toUInt32) := by
  simp only [i32Const, checkedGet_of_getElem? h, ok_bind]
  rfl

theorem isBlockParam_eq {r j k : Nat} {blk : Block} (hblk : b.blocks[j]? = some blk) :
    b.isBlockParam r j k = .ok (blk.params[k]? == some r) := by
  simp only [isBlockParam, checkedGet_of_getElem? hblk, ok_bind]
  rfl

/-- A lowered body of a function with one result is read without failing: its entry block and
the target of its branch exist, its return carries one value, and every value they name is
made. -/
theorem returnedConstant_ok (hl : b.Lowered Operator.CarriesLiteral) (hres : b.results.length = 1) :
    ∃ r, b.returnedConstant = .ok r := by
  obtain ⟨blk, hblk⟩ : ∃ blk, b.blocks[b.entry]? = some blk := ⟨_, Array.getElem?_eq_getElem hl.entry⟩
  have hterm : termAt b.blocks b.entry = blk.term := by simp [termAt, hblk]
  unfold returnedConstant
  rw [checkedGet_of_getElem? hblk, ok_bind]
  split
  · -- a return carries the function's one result
    rename_i values hret
    rw [hret] at hterm
    obtain ⟨v, rfl⟩ := List.length_eq_one_iff.mp ((hl.rets _ _ hterm).trans hres)
    exact i32Const_ok hl ((hl.below _ _ hterm).1 _ rfl v (List.mem_singleton_self v))
  · -- a branch forwards a literal only to a block that exists
    rename_i target args hbr
    rw [hbr] at hterm
    split
    · rename_i x
      obtain ⟨lit?, hlit⟩ := i32Const_ok hl ((hl.below _ _ hterm).2 _ (List.mem_singleton_self _) x
        (List.mem_singleton_self x))
      rw [hlit, ok_bind]
      split
      · have htarget := Array.getElem?_eq_getElem (hl.targets _ _ hterm _ (List.mem_singleton_self _))
        rw [checkedGet_of_getElem? htarget, ok_bind]
        split
        · rw [isBlockParam_eq htarget, ok_bind]
          split <;> exact ⟨_, rfl⟩
        · exact ⟨_, rfl⟩
      · exact ⟨_, rfl⟩
    · exact ⟨_, rfl⟩
  · exact ⟨_, rfl⟩

/-- The two shapes of body that return the literal `c`: the entry block returns an `i32.const`
of `c`, or it passes one as the only argument of a branch to a block that returns its first
parameter. Either block may run other operators, and the target may have other parameters. -/
inductive ReturnsLiteral (b : Body) (c : UInt32) : Prop
  | ret {blk : Block} {v : Nat} {x : Int32} {args : List Nat} {ts : List Wasm.ValType} :
      b.blocks[b.entry]? = some blk → blk.term = some (.ret [v]) →
      b.values[v]? = some (.operator ⟨0x41, some (.i32 x)⟩ args ts) → c = x.toUInt32 →
      ReturnsLiteral b c
  | forward {blk blk' : Block} {target x r : Nat} {lit : Int32} {args : List Nat}
      {ts : List Wasm.ValType} :
      b.blocks[b.entry]? = some blk → blk.term = some (.br ⟨target, [x]⟩) →
      b.values[x]? = some (.operator ⟨0x41, some (.i32 lit)⟩ args ts) → c = lit.toUInt32 →
      b.blocks[target]? = some blk' → blk'.term = some (.ret [r]) → blk'.params[0]? = some r →
      ReturnsLiteral b c

/-- What the extractor finds is the literal of a body of one of the two shapes. -/
theorem ReturnsLiteral.of_returnedConstant {c : UInt32} (h : b.returnedConstant = .ok (some c)) :
    b.ReturnsLiteral c := by
  unfold returnedConstant at h
  obtain ⟨blk, hblk, h⟩ := bind_eq_ok h
  have hblk := getElem?_of_checkedGet hblk
  split at h
  · rename_i values hterm
    obtain ⟨v, hv, h⟩ := bind_eq_ok h
    unfold single at hv
    split at hv
    · cases hv
      obtain ⟨x, args, ts, hx, rfl⟩ := i32Const_eq_some h
      exact .ret hblk hterm hx rfl
    · cases hv
  · rename_i target args hterm
    split at h
    · rename_i x
      obtain ⟨lit?, hlit, h⟩ := bind_eq_ok h
      split at h
      · obtain ⟨blk', hblk', h⟩ := bind_eq_ok h
        have hblk' := getElem?_of_checkedGet hblk'
        split at h
        · rename_i r hterm'
          obtain ⟨isParam, hparam, h⟩ := bind_eq_ok h
          rw [isBlockParam_eq hblk'] at hparam
          cases hparam
          split at h
          · rename_i hr
            cases h
            obtain ⟨y, args', ts', hy, rfl⟩ := i32Const_eq_some hlit
            exact .forward hblk hterm hy rfl hblk' hterm' (by simpa using hr)
          · cases h
        · cases h
      · cases h
    · cases h
  · cases h

/-- The extractor finds the literal of a body of either shape. -/
theorem ReturnsLiteral.returnedConstant_eq {c : UInt32} (h : b.ReturnsLiteral c) :
    b.returnedConstant = .ok (some c) := by
  cases h with
  | ret hblk hterm hv hc =>
    simp only [returnedConstant, checkedGet_of_getElem? hblk, ok_bind, hterm, single]
    rw [i32Const_of_getElem? hv, hc]
  | forward hblk hterm hx hc hblk' hterm' hr =>
    simp only [returnedConstant, checkedGet_of_getElem? hblk, ok_bind, hterm, i32Const_of_getElem? hx,
      checkedGet_of_getElem? hblk', hterm', isBlockParam_eq hblk', hr, beq_self_eq_true, ↓reduceIte]
    rw [hc]
    rfl

/-- The extractor finds the literal `c` exactly in a body of one of the two shapes. -/
theorem returnedConstant_eq_some {c : UInt32} :
    b.returnedConstant = .ok (some c) ↔ b.ReturnsLiteral c :=
  ⟨ReturnsLiteral.of_returnedConstant, ReturnsLiteral.returnedConstant_eq⟩

/-! ## Runs of a body that returns a literal -/

variable {α : Type} {I : Interp α}

theorem mapM_singleton {f : Nat → Option α} {v : Nat} {rs : List α} (h : [v].mapM f = some rs) :
    ∃ y, f v = some y ∧ rs = [y] := by
  rcases hv : f v with _ | y
  · simp [hv] at h
  · simp only [List.mapM_cons, List.mapM_nil, hv, Option.bind_eq_bind, Option.bind_some,
      Option.pure_def, Option.some.injEq] at h
    exact ⟨y, rfl, h.symm⟩

/-- A parameter value reads as the first value bound to it. -/
theorem read_param {env : Env α} {p j k : Nat} {t : Wasm.ValType}
    (hp : b.values[p]? = some (.param j k t)) : b.read env p = (env p).bind List.head? := by
  simp [read, hp]

/-- The parameters of a block of a consistent body are its parameter values. -/
theorem Consistent.param (hc : b.Consistent) {j k p : Nat} {blk : Block} (hblk : b.blocks[j]? = some blk)
    (hp : blk.params[k]? = some p) : ∃ t, b.values[p]? = some (.param j k t) :=
  (hc.params j k p).mp (by simp [paramAt, hblk, hp])

/-- Binding a block's parameters keeps the literals. -/
theorem Consistent.bindParams_literals (hc : b.Consistent) {env : Env α} {j : Nat} {blk : Block}
    (hblk : b.blocks[j]? = some blk) (args : List α) (hl : Literals b I env) :
    Literals b I (env.bindParams blk.params.toList args) := by
  refine Env.bindParams_literals args (fun p hp o as ts hop => ?_) hl
  obtain ⟨k, hk⟩ := List.mem_iff_getElem?.mp hp
  obtain ⟨t, ht⟩ := hc.param hblk (by simpa using hk)
  rw [ht] at hop
  cases hop

/-- Entering a block that returns `[v]`, a run returns what `v` reads once the block's operators
ran. -/
theorem Returns.of_ret {env : Env α} {j : Nat} {args rs : List α} {blk : Block} {v : Nat}
    (h : b.Returns I env j args rs) (hblk : b.blocks[j]? = some blk) (hterm : blk.term = some (.ret [v])) :
    blk.params.size = args.length ∧ ∃ env' y, b.RunsOps I (env.bindParams blk.params.toList args)
      blk.insts.toList env' ∧ b.read env' v = some y ∧ rs = [y] := by
  cases h with
  | ret hb hsize hops ht hrs =>
    rw [hblk, Option.some.injEq] at hb
    subst hb
    rw [hterm, Option.some.injEq, Terminator.ret.injEq] at ht
    subst ht
    obtain ⟨y, hy, rfl⟩ := mapM_singleton hrs
    exact ⟨hsize, _, y, hops, hy, rfl⟩
  | jump hb _ _ ht he =>
    rw [hblk, Option.some.injEq] at hb
    subst hb
    rw [hterm, Option.some.injEq] at ht
    subst ht
    simp [Terminator.successors] at he

/-- Entering a block that branches to `target` with `[x]`, a run goes on into `target` with what
`x` reads once the block's operators ran. -/
theorem Returns.of_br {env : Env α} {j : Nat} {args rs : List α} {blk : Block} {target x : Nat}
    (h : b.Returns I env j args rs) (hblk : b.blocks[j]? = some blk)
    (hterm : blk.term = some (.br ⟨target, [x]⟩)) :
    ∃ env' y, b.RunsOps I (env.bindParams blk.params.toList args) blk.insts.toList env' ∧
      b.read env' x = some y ∧ b.Returns I env' target [y] rs := by
  cases h with
  | ret hb _ _ ht =>
    rw [hblk, Option.some.injEq] at hb
    subst hb
    rw [hterm] at ht
    cases ht
  | jump hb _ hops ht he hxs hnext =>
    rw [hblk, Option.some.injEq] at hb
    subst hb
    rw [hterm, Option.some.injEq] at ht
    subst ht
    simp only [Terminator.successors, List.mem_singleton] at he
    subst he
    obtain ⟨y, hy, rfl⟩ := mapM_singleton hxs
    exact ⟨_, y, hops, hy, hnext⟩

theorem params_toList_single {blk : Block} {r : Nat} (hsize : blk.params.size = 1)
    (hr : blk.params[0]? = some r) : blk.params.toList = [r] := by
  obtain ⟨a, ha⟩ := List.length_eq_one_iff.mp (by simpa using hsize : blk.params.toList.length = 1)
  have hr : blk.params.toList[0]? = some r := by simpa using hr
  rw [ha] at hr ⊢
  simpa using hr

/-- In a consistent body of either shape, every run that returns, returns the literal, whatever
the operators compute and whatever the entry block is given. -/
theorem ReturnsLiteral.runs {c : UInt32} (hr : b.ReturnsLiteral c) (hc : b.Consistent) {args rs : List α}
    (h : b.Runs I args rs) : rs = [I.lit c] := by
  cases hr with
  | ret hblk hterm hv hlit =>
    obtain ⟨-, env', y, hops, hy, rfl⟩ := h.of_ret hblk hterm
    have hl := hops.literals (hc.bindParams_literals hblk args literals_empty)
    rw [hl.read hv hy, hlit]
  | @forward blk blk' target x r lit os ts hblk hterm hx hlit hblk' hterm' hr =>
    obtain ⟨env', y, hops, hy, hnext⟩ := h.of_br hblk hterm
    have hy : y = I.lit c := by
      rw [(hops.literals (hc.bindParams_literals hblk args literals_empty)).read hx hy, hlit]
    obtain ⟨hsize, env'', z, hops', hz, rfl⟩ := hnext.of_ret hblk' hterm'
    -- the parameter returned is bound to the literal, and no operator of the block writes it
    obtain ⟨t, ht⟩ := hc.param hblk' hr
    have hbound : env'' r = some [y] := by
      rw [hops'.frame (fun o as ts h => by rw [ht] at h; cases h), params_toList_single hsize hr,
        Env.bindParams_single]
    rw [read_param ht, hbound] at hz
    simp only [Option.bind_some, List.head?_cons, Option.some.injEq] at hz
    rw [← hz, hy]

end Ssa.Body

/-! ## The exported constant -/

theorem Logged.yields_ofFaults {α : Type} {x : Logged Fault α} {r : Except Fault α} (hx : x.Yields r) :
    Yields (Failure.ofFaults x) (r.mapError Failure.fault) := by
  intro log
  have hlog := hx log
  simp only [Failure.ofFaults, ExceptT.adapt, ExceptT.run_mk, StateT.run_map] at hlog ⊢
  rw [← hlog]
  rfl

namespace View

/-- What the extractor computes, from whatever log: nothing for a name that exports no
`[] → [i32]` function or that exports an import, else the fault lowering the body gives, or what
reading the lowered body gives. -/
theorem exportedConstant_yields (v : View) (name : String) :
    (v.exportedConstant name).Yields (match v.exportedFunc? name ⟨[], [.i32]⟩ with
      | none => .ok none
      | some f => checkedGet v.funcs f.toNat >>= fun d =>
          if d.imported then .ok none
          else (Ssa.Body.lower v.raw f).mapError Failure.fault >>= fun body => body.returnedConstant) := by
  rcases hf : v.exportedFunc? name ⟨[], [.i32]⟩ with _ | f <;> simp only [View.exportedConstant, hf]
  · exact yields_pure _
  refine (yields_ofExcept _).bind fun d => ?_
  split
  · exact yields_pure _
  refine (yields_ofFaults (yields_ofExcept _)).bind fun body => ?_
  conv => rhs; rw [← bind_pure body.returnedConstant]
  refine (yields_ofExcept _).bind fun r => ?_
  cases r with
  | none => exact yields_pure _
  | some c => exact (yields_logDebug _ _ _).bind fun _ => yields_pure _

/-- A function exported with a type has that type. -/
theorem exportedFunc?_funcType {v : View} {name : String} {t : Wasm.FuncType} {f : UInt32}
    (h : v.exportedFunc? name t = some f) : v.funcType? f = some t := by
  unfold exportedFunc? funcOfType? at h
  split at h
  · split at h
    · split at h
      · rename_i heq
        cases h
        simpa using heq
      · cases h
    · cases h
  · cases h

theorem parse_ofModule {bytes : ByteArray} {v : View} (h : parse bytes = .ok v) :
    ∃ raw, ofModule raw = .ok v := by
  unfold parse at h
  split at h
  · exact ⟨_, h⟩
  · cases h

/-- The extractor never panics on a view of a module: the function it reads is declared, the
module gives its body the type `[] → [i32]` the view does, so its returns carry one value, and
lowering builds all the rest it takes for granted. It may still fail with the fault of a body
that cannot be lowered. -/
theorem exportedConstant_never_crashes {bytes : ByteArray} {v : View} (h : parse bytes = .ok v)
    (name msg : String) : (v.exportedConstant name).outcome ≠ .error (.crash msg) := by
  obtain ⟨raw, hraw⟩ := parse_ofModule h
  rw [(exportedConstant_yields v name).outcome]
  rcases hf : v.exportedFunc? name ⟨[], [.i32]⟩ with _ | f
  · simp
  have htype := exportedFunc?_funcType hf
  obtain ⟨d, hd, -⟩ : ∃ d, v.funcs[f.toNat]? = some d ∧ v.signatures[d.sig.toNat]? = some ⟨[], [.i32]⟩ := by
    simpa [View.funcType?, Option.bind_eq_some_iff] using htype
  simp only [checkedGet_of_getElem? hd, ok_bind]
  split
  · simp
  rcases hlower : Ssa.Body.lower v.raw f with e | body
  · simp only [Except.mapError]
    rintro ⟨⟩
  -- the raw module gives the function the type the view does
  obtain ⟨hl, sig, hsig, hres⟩ := Ssa.Body.lower_lowered hlower
  rw [ofModule_raw hraw, ← ofModule_funcType hraw, htype, Option.some.injEq] at hsig
  subst hsig
  obtain ⟨r, hr⟩ := Ssa.Body.returnedConstant_ok hl (by simp [hres])
  simp only [Except.mapError, ok_bind, hr]
  rintro ⟨⟩

/-- The view of `Module.exportedFunction`: one function of type `[] → [i32]`, exported as `f`. -/
def exportedFunctionView : View where
  raw := Module.exportedFunction
  signatures := #[⟨[], [.i32]⟩]
  funcs := #[⟨0, false⟩]
  exports := #[⟨"f", 0, .func⟩]

theorem exportedFunctionView_never_crashes :
    parse ⟨#[0x00, 0x61, 0x73, 0x6d, 0x01, 0x00, 0x00, 0x00,
        0x01, 0x05, 0x01, 0x60, 0x00, 0x01, 0x7f,
        0x03, 0x02, 0x01, 0x00,
        0x07, 0x05, 0x01, 0x01, 0x66, 0x00, 0x00,
        0x0a, 0x06, 0x01, 0x04, 0x00, 0x41, 0x2a, 0x0b,
        0x00, 0x03, 0x01, 0x6e, 0x01]⟩ = .ok exportedFunctionView ∧
      ∀ name msg, (exportedFunctionView.exportedConstant name).outcome ≠ .error (.crash msg) :=
  have h : parse ⟨#[0x00, 0x61, 0x73, 0x6d, 0x01, 0x00, 0x00, 0x00,
      0x01, 0x05, 0x01, 0x60, 0x00, 0x01, 0x7f,
      0x03, 0x02, 0x01, 0x00,
      0x07, 0x05, 0x01, 0x01, 0x66, 0x00, 0x00,
      0x0a, 0x06, 0x01, 0x04, 0x00, 0x41, 0x2a, 0x0b,
      0x00, 0x03, 0x01, 0x6e, 0x01]⟩ = .ok exportedFunctionView := by cbv
  ⟨h, exportedConstant_never_crashes h⟩

/-- A constant the extractor finds is what the exported function returns: its body lowers, and
every run of it that returns, returns the constant alone, for every meaning of the operators. -/
theorem exportedConstant_sound {v : View} {name : String} {c : UInt32}
    (h : (v.exportedConstant name).outcome = .ok (some c)) :
    ∃ f body, v.exportedFunc? name ⟨[], [.i32]⟩ = some f ∧ Ssa.Body.lower v.raw f = .ok body ∧
      ∀ {α : Type} (I : Ssa.Interp α) (args rs : List α), body.Runs I args rs → rs = [I.lit c] := by
  rw [(exportedConstant_yields v name).outcome] at h
  rcases hf : v.exportedFunc? name ⟨[], [.i32]⟩ with _ | f <;> simp only [hf] at h
  · cases h
  obtain ⟨d, -, h⟩ := bind_eq_ok h
  split at h
  · cases h
  obtain ⟨body, hbody, h⟩ := bind_eq_ok h
  have hlower := mapError_eq_ok hbody
  exact ⟨f, body, rfl, hlower, fun I args rs hrun =>
    (Ssa.Body.returnedConstant_eq_some.mp h).runs (Ssa.Body.lower_consistent hlower) hrun⟩

/-- The body `Module.exportedFunction` lowers to: its entry block runs `i32.const 42` and
returns it. -/
def answerBody : Ssa.Body where
  params := []
  results := [.i32]
  blocks := #[{ insts := #[0], term := some (.ret [0]) }]
  values := #[.operator ⟨0x41, some (.i32 42)⟩ [] [.i32]]

theorem exportedFunctionView_constant :
    (exportedFunctionView.exportedConstant "f").outcome = .ok (some 42) ∧
      Ssa.Body.lower exportedFunctionView.raw 0 = .ok answerBody ∧
      (∀ {α : Type} (I : Ssa.Interp α) (args rs : List α), answerBody.Runs I args rs →
        rs = [I.lit 42]) ∧
      answerBody.Runs Ssa.Interp.literals [] [42] := by
  have h : (exportedFunctionView.exportedConstant "f").outcome = .ok (some 42) := by cbv
  have hlower : Ssa.Body.lower exportedFunctionView.raw 0 = .ok answerBody := by cbv
  have hf : exportedFunctionView.exportedFunc? "f" ⟨[], [.i32]⟩ = some 0 := by cbv
  obtain ⟨f, body, hf', hbody, hruns⟩ := exportedConstant_sound h
  rw [hf, Option.some.injEq] at hf'
  subst hf'
  rw [hlower, Except.ok.injEq] at hbody
  subst hbody
  -- the run that exists: the literal computed, then returned
  exact ⟨h, hlower, hruns, .ret rfl rfl (.cons rfl rfl ⟨42, rfl, rfl⟩ (.nil _)) rfl rfl⟩

end View

end WasmImage
