import WasmImage.Proofs.LowerNesting

/-!
# Closing frames under the lowering invariant

`Lowering.Wf` is kept by entering a construct, by its `else` and by branches. This module adds its
`end`. In skipped code an `end` only counts a construct off (`Wf.setDeadDepth`); the function's
last `end` returns and leaves no code live (`Wf.finish`); any other closes the innermost frame and
goes on in the block after it (`Wf.closeFrame`, `Wf.resume`). Only the `end` of an `if` without
`else` asks something of the code: its else block has run nothing and branches to the block after
the `if` with the operands the `if` kept for it, one per parameter, while that block takes one
value per result. So the end keeps the invariant when the `if` has as many parameters as results
(`Wf.endFrame`). With the steps of live code that leave the frames alone (`Wf.operator`,
`Wf.pushLocal`, `Wf.setLocal`, `Wf.returnTop`), every instruction keeps it (`Wf.instr`).

The block types of a construct are read from the module being lowered, which no step of lowering
changes (`KeepsModule`, `Lowers.module`).
-/

namespace WasmImage.Ssa

open Wasm Lower

/-! ## The module lowered -/

/-- Every run of `x` that succeeds leaves the module being lowered as it was. -/
def KeepsModule {α : Type} (x : LowerM α) : Prop :=
  ∀ s a s', x.run s = .ok (a, s') → s'.module = s.module

namespace KeepsModule

variable {α β : Type}

theorem of_run {x : LowerM α} {g : Lowering → α × Lowering} (hx : ∀ s, x.run s = .ok (g s))
    (hg : ∀ s, (g s).2.module = s.module) : KeepsModule x := by
  intro s a s' h
  rw [hx] at h
  injection h with h
  have hs := hg s
  rwa [h] at hs

theorem pure (a : α) : KeepsModule (Pure.pure a : LowerM α) :=
  of_run (fun s => pure_run s a) fun _ => rfl

theorem throw (e : LowerFault) : KeepsModule (MonadExcept.throw e : LowerM α) := by
  intro s a s' h
  cases h

theorem throw_bind (e : LowerFault) (f : α → LowerM β) : KeepsModule (MonadExcept.throw e >>= f) := by
  intro s a s' h
  cases h

theorem get : KeepsModule (MonadState.get : LowerM Lowering) :=
  of_run get_run fun _ => rfl

/-- A step that reads the state `s` and runs `f s`, when each run of `f s` from `s` itself keeps
the module. -/
theorem get_bind {f : Lowering → LowerM α}
    (hf : ∀ s a s', (f s).run s = .ok (a, s') → s'.module = s.module) :
    KeepsModule (MonadState.get >>= f) := by
  intro s a s' h
  rw [StateT.run_bind, get_run, ok_bind] at h
  exact hf s a s' h

theorem modify {f : Lowering → Lowering} (hf : ∀ s, (f s).module = s.module) :
    KeepsModule (modify f : LowerM PUnit) :=
  of_run (fun s => modify_run s f) hf

theorem bind {x : LowerM α} {f : α → LowerM β} (hx : KeepsModule x) (hf : ∀ a, KeepsModule (f a)) :
    KeepsModule (x >>= f) := by
  intro s b s' h
  rw [StateT.run_bind] at h
  obtain ⟨⟨a, s₁⟩, h₁, h₂⟩ := bind_eq_ok h
  exact (hf a s₁ b s' h₂).trans (hx s a s₁ h₁)

theorem map (f : α → β) {x : LowerM α} (hx : KeepsModule x) : KeepsModule (f <$> x) := by
  intro s b s' h
  rw [StateT.run_map] at h
  obtain ⟨⟨a, s₁⟩, h₁, h₂⟩ := map_eq_ok h
  cases h₂
  exact hx s a s₁ h₁

theorem ite {c : Prop} [Decidable c] {x y : LowerM α} (hx : KeepsModule x) (hy : KeepsModule y) :
    KeepsModule (if c then x else y) := by
  split
  exacts [hx, hy]

theorem dite {c : Prop} [Decidable c] {x : c → LowerM α} {y : ¬c → LowerM α}
    (hx : ∀ h, KeepsModule (x h)) (hy : ∀ h, KeepsModule (y h)) :
    KeepsModule (if h : c then x h else y h) := by
  split
  exacts [hx _, hy _]

theorem forIn {f : α → β → LowerM (ForInStep β)} (hf : ∀ a b, KeepsModule (f a b)) :
    ∀ (l : List α) (b : β), KeepsModule (forIn l b f)
  | [], b => pure b
  | a :: l, b => by
    rw [List.forIn_cons]
    refine bind (hf a b) fun r => ?_
    cases r with
    | done b' => exact pure b'
    | yield b' => exact forIn hf l b'

theorem forIn_array {f : α → β → LowerM (ForInStep β)} (hf : ∀ a b, KeepsModule (f a b))
    (xs : Array α) (b : β) : KeepsModule (ForIn.forIn xs b f) := by
  rw [← Array.forIn_toList]
  exact forIn hf xs.toList b

theorem forIn_range {f : Nat → β → LowerM (ForInStep β)} (hf : ∀ i b, KeepsModule (f i b)) (n : Nat)
    (b : β) : KeepsModule (ForIn.forIn [:n] b f) := by
  rw [Std.Legacy.Range.forIn_eq_forIn_range']
  exact forIn hf _ b

theorem mapM {f : α → LowerM β} (hf : ∀ a, KeepsModule (f a)) :
    ∀ l : List α, KeepsModule (l.mapM f)
  | [] => pure []
  | a :: l => by
    rw [List.mapM_cons]
    exact bind (hf a) fun _ => bind (mapM hf l) fun _ => pure _

end KeepsModule

section Keeps

variable {blk : Nat}

theorem newBlock_keepsModule : KeepsModule newBlock := .of_run newBlock_run fun _ => rfl

theorem newValue_keepsModule (d : ValueDef) : KeepsModule (newValue d) :=
  .of_run (fun s => newValue_run s d) fun _ => rfl

theorem modifyBlock_keepsModule (f : Block → Block) : KeepsModule (modifyBlock blk f) :=
  .of_run (fun s => modifyBlock_run s blk f) fun _ => rfl

theorem modifyState_keepsModule (f : BlockState → BlockState) : KeepsModule (modifyState blk f) :=
  .of_run (fun s => modifyState_run s blk f) fun _ => rfl

theorem blockAt_keepsModule : KeepsModule (blockAt blk) :=
  .of_run (fun s => blockAt_run s blk) fun _ => rfl

theorem stateAt_keepsModule : KeepsModule (stateAt blk) :=
  .of_run (fun s => stateAt_run s blk) fun _ => rfl

theorem addParam_keepsModule (t : ValType) : KeepsModule (addParam blk t) :=
  .of_run (fun s => addParam_run s blk t) fun _ => rfl

theorem defineLocal_keepsModule (idx : UInt32) (v : Nat) : KeepsModule (defineLocal blk idx v) :=
  .of_run (fun s => defineLocal_run s blk idx v) fun _ => rfl

theorem push_keepsModule (v : Nat) : KeepsModule (push v) :=
  .of_run (fun s => push_run s v) fun _ => rfl

theorem dup_keepsModule (n : Nat) : KeepsModule (dup n) :=
  .of_run (fun s => dup_run s n) fun _ => rfl

theorem lookupFuel_keepsModule : KeepsModule lookupFuel := .of_run lookupFuel_run fun _ => rfl

theorem switchTo_keepsModule (base n : Nat) : KeepsModule (switchTo base blk n) :=
  .of_run (fun s => switchTo_run s base blk n) fun _ => rfl

theorem terminate_keepsModule (t : Terminator) : KeepsModule (terminate t) :=
  .of_run (fun s => terminate_run s t) fun _ => rfl

theorem pop_keepsModule (n : Nat) : KeepsModule (pop n) := by
  intro s l s' h
  obtain ⟨-, -, rfl⟩ := pop_run s h
  rfl

theorem peek_keepsModule (n : Nat) : KeepsModule (peek n) := by
  intro s l s' h
  obtain ⟨-, -, rfl⟩ := peek_run s h
  rfl

theorem emit_keepsModule (o : Operator) (args : List Nat) (results : List ValType) :
    KeepsModule (emit o args results) := by
  intro s vs s' h
  obtain ⟨-, -, rfl, -⟩ := emit_run s h
  rfl

/-- Reading a local and passing it along edges, at every fuel: by induction on the fuel, which
both calls lower by one. -/
theorem readLocal_addPredArgs_keepsModule : ∀ fuel : Nat,
    (∀ blk idx, KeepsModule (readLocal fuel blk idx)) ∧
      ∀ blk idx, KeepsModule (addPredArgs fuel blk idx)
  | 0 => ⟨fun blk idx => by rw [readLocal]; exact .throw _,
      fun blk idx => by rw [addPredArgs]; exact .throw _⟩
  | fuel + 1 => by
    obtain ⟨hread, hpass⟩ := readLocal_addPredArgs_keepsModule fuel
    constructor
    · intro blk idx
      rw [readLocal]
      refine .bind stateAt_keepsModule fun st => ?_
      split
      · exact .pure _
      refine .bind .get fun s => ?_
      refine .ite ?_ (.dite (fun _ => ?_) fun _ => ?_)
      · exact .bind (newValue_keepsModule _) fun v =>
          .bind (modifyState_keepsModule _) fun _ => .pure v
      · exact .bind (hread _ idx) fun v => .bind (defineLocal_keepsModule idx v) fun _ => .pure v
      · exact .bind (addParam_keepsModule _) fun v => .bind (defineLocal_keepsModule idx v) fun _ =>
          .bind (hpass blk idx) fun _ => .pure v
    · intro blk idx
      rw [addPredArgs]
      refine .bind stateAt_keepsModule fun st =>
        .bind (.forIn_array (fun p _ => ?_) _ _) fun _ => .pure _
      exact .bind (hread _ idx) fun v => .bind (modifyBlock_keepsModule _) fun _ => .pure _

theorem sealBlock_keepsModule : KeepsModule (sealBlock blk) := by
  unfold sealBlock
  refine .bind stateAt_keepsModule fun st => .ite (.pure _) ?_
  refine .bind (modifyState_keepsModule _) fun _ =>
    .bind (.forIn_array (fun p _ => ?_) _ _) fun _ => .pure _
  exact .bind blockAt_keepsModule fun _ => .bind (.modify fun _ => rfl) fun _ =>
    .bind (modifyBlock_keepsModule _) fun _ => .bind lookupFuel_keepsModule fun fuel =>
      .bind ((readLocal_addPredArgs_keepsModule fuel).2 blk _) fun _ => .pure _

theorem returnBlock_keepsModule : KeepsModule returnBlock := by
  unfold returnBlock
  refine .bind .get fun s => ?_
  split
  · exact .pure _
  exact .bind newBlock_keepsModule fun blk => .bind .get fun _ =>
    .bind (.mapM (fun _ => addParam_keepsModule _) _) fun _ => .bind sealBlock_keepsModule fun _ =>
      .bind (modifyBlock_keepsModule _) fun _ => .bind (.modify fun _ => rfl) fun _ => .pure _

theorem target_keepsModule (label : UInt32) : KeepsModule (target label) := by
  unfold target
  refine .bind .get fun s => .ite (.throw _) ?_
  split
  · -- the frame the label names
    dsimp only
    split
    · exact .bind returnBlock_keepsModule fun _ => .pure _
    · exact .pure _
    · exact .pure _
  · exact .throw _

theorem br_keepsModule (label : UInt32) : KeepsModule (br label) := by
  unfold br
  refine .bind .get fun s => .ite ?_ ?_
  · exact .bind (peek_keepsModule _) fun _ => terminate_keepsModule _
  · exact .bind (target_keepsModule label) fun _ => .bind (peek_keepsModule _) fun _ =>
      terminate_keepsModule _

theorem brIf_keepsModule (label : UInt32) : KeepsModule (brIf label) := by
  unfold brIf
  exact .bind (pop_keepsModule 1) fun _ => .bind (target_keepsModule label) fun _ =>
    .bind (peek_keepsModule _) fun _ => .bind newBlock_keepsModule fun _ =>
      .bind (terminate_keepsModule _) fun _ => .bind sealBlock_keepsModule fun _ =>
        .modify fun _ => rfl

theorem brTable_keepsModule (labels : List UInt32) (default : UInt32) :
    KeepsModule (brTable labels default) := by
  unfold brTable
  refine .bind (pop_keepsModule 1) fun _ => .ite (br_keepsModule default) ?_
  refine .bind (target_keepsModule default) fun _ => .bind (peek_keepsModule _) fun _ =>
    .bind (.forIn (fun label _ => ?_) _ _) fun _ => terminate_keepsModule _
  exact .bind (target_keepsModule label) fun _ => .ite (.throw _) (.bind (dup_keepsModule _) fun _ => .pure _)

theorem effect_keepsModule (op : UInt8) (imm : Option Imm) : KeepsModule (effect op imm) := by
  unfold effect
  split
  · exact .pure _
  refine .ite (.pure _) (.ite (.pure _) (.bind .get fun s => ?_))
  dsimp only
  -- every operator reads the module or the stack, and changes nothing
  split <;> (try split) <;> first
    | exact .pure _
    | exact .throw _
    | exact .bind .get fun _ => .ite (.bind (.throw _) fun _ => .pure _) (.pure _)

theorem operator_keepsModule (op : UInt8) (imm : Option Imm) : KeepsModule (operator op imm) := by
  unfold operator
  refine .bind (effect_keepsModule op imm) fun (n, results) => ?_
  exact .bind (pop_keepsModule n) fun _ => .bind (emit_keepsModule _ _ _) fun vs =>
    .bind (.forIn (fun v _ => .bind (push_keepsModule v) fun _ => .pure _) vs _) fun _ => .pure _

theorem enter_keepsModule (op : UInt8) (params results : List ValType) :
    KeepsModule (enter op params results) := by
  have addParams : ∀ (blk : Nat) (ts : List ValType), KeepsModule
      (forIn ts PUnit.unit fun t _ => do
        let _ ← addParam blk t
        pure (ForInStep.yield PUnit.unit) : LowerM PUnit) := fun blk ts =>
    .forIn (fun _ _ => .bind (addParam_keepsModule _) fun _ => .pure _) ts _
  unfold enter
  refine .bind .get fun s => .ite (.throw_bind _ _) ?_
  split
  · exact .bind newBlock_keepsModule fun _ => .bind (addParams _ _) fun _ => .modify fun _ => rfl
  · exact .bind newBlock_keepsModule fun _ => .bind newBlock_keepsModule fun _ =>
      .bind (addParams _ _) fun _ => .bind (addParams _ _) fun _ => .bind (dup_keepsModule _) fun _ =>
        .bind (terminate_keepsModule _) fun _ => .bind (.modify fun _ => rfl) fun _ =>
          switchTo_keepsModule _ _
  · exact .bind (pop_keepsModule 1) fun _ => .ite (.throw_bind _ _) (.bind newBlock_keepsModule fun _ =>
      .bind newBlock_keepsModule fun _ => .bind newBlock_keepsModule fun _ =>
        .bind (addParams _ _) fun _ => .bind (dup_keepsModule _) fun _ =>
          .bind (terminate_keepsModule _) fun _ => .bind sealBlock_keepsModule fun _ =>
            .bind sealBlock_keepsModule fun _ => .modify fun _ => rfl)

theorem elseBranch_keepsModule : KeepsModule elseBranch := by
  unfold elseBranch
  refine .bind .get fun s => .ite (.pure _) ?_
  split
  · dsimp only
    refine .ite (.throw_bind _ _) (.bind (.modify fun _ => rfl) fun _ => ?_)
    exact .ite (.bind (peek_keepsModule _) fun _ => .bind (terminate_keepsModule _) fun _ =>
      .modify fun _ => rfl) (.modify fun _ => rfl)
  · exact .throw _

theorem endFrame_keepsModule : KeepsModule endFrame := by
  unfold endFrame
  refine .get_bind fun s a s' h => ?_
  split at h
  · -- the end of a construct in skipped code only counts it off
    simp only [StateT.run_bind, set_run, ok_bind, pure_run] at h
    cases h
    rfl
  refine (?_ : KeepsModule _) s a s' h
  split
  · refine .bind (.modify fun _ => rfl) fun _ => .ite ?_ ?_ <;> dsimp only
    · exact .ite (.bind (peek_keepsModule _) fun _ => .bind (terminate_keepsModule _) fun _ =>
        .bind (.modify fun _ => rfl) fun _ => .pure _) (.bind (.modify fun _ => rfl) fun _ => .pure _)
    refine .ite (.bind (peek_keepsModule _) fun _ => .bind (terminate_keepsModule _) fun _ =>
      .bind (.modify fun _ => rfl) fun _ => ?_) (.bind (.modify fun _ => rfl) fun _ => ?_)
    all_goals
      split
      · exact .bind sealBlock_keepsModule fun _ => .bind sealBlock_keepsModule fun _ =>
          switchTo_keepsModule _ _
      · exact .bind (.modify fun _ => rfl) fun _ => .bind (terminate_keepsModule _) fun _ =>
          .bind sealBlock_keepsModule fun _ => switchTo_keepsModule _ _
      · exact .bind sealBlock_keepsModule fun _ => switchTo_keepsModule _ _
  · exact .throw _

theorem instr_keepsModule (ins : Instr) : KeepsModule (Lower.instr ins) := by
  unfold Lower.instr
  split
  case h_4 => exact elseBranch_keepsModule
  case h_5 => exact endFrame_keepsModule
  case h_6 =>
    refine .bind .get fun _ => .ite (.pure _) ?_
    -- one case for each instruction the lowering knows, then the operators
    split
    · exact .pure _
    · exact terminate_keepsModule _
    · exact br_keepsModule _
    · exact brIf_keepsModule _
    · exact brTable_keepsModule _ _
    · exact .bind .get fun _ => .bind (peek_keepsModule _) fun _ => terminate_keepsModule _
    · exact .map _ (pop_keepsModule 1)
    · exact .bind .get fun _ => .ite (.throw_bind _ _) (.bind lookupFuel_keepsModule fun fuel =>
        .bind .get fun _ => .bind ((readLocal_addPredArgs_keepsModule fuel).1 _ _) fun v =>
          push_keepsModule v)
    all_goals first
      | exact operator_keepsModule _ _
      | exact .bind .get fun _ => .ite (.throw_bind _ _) (.bind (pop_keepsModule 1) fun _ =>
          .bind .get fun _ => .bind (defineLocal_keepsModule _ _) fun _ =>
            .ite (push_keepsModule _) (.pure _))
      | exact .bind (operator_keepsModule _ _) fun _ => .bind .get fun _ =>
          .bind (peek_keepsModule _) fun _ => terminate_keepsModule _
  all_goals
    -- a block, a loop or an `if`: only counted in skipped code
    refine .get_bind fun s a s' h => ?_
    split at h
    · rw [set_run] at h
      cases h
      rfl
    refine (?_ : KeepsModule _) s a s' h
    dsimp only
    split
    · exact enter_keepsModule _ _ _
    · exact .throw _

theorem start_keepsModule (locals : List LocalGroup) : KeepsModule (start locals) := by
  unfold start
  refine .bind newBlock_keepsModule fun entry => .bind (.modify fun _ => rfl) fun _ =>
    .bind sealBlock_keepsModule fun _ => .bind .get fun _ => .bind ?_ fun _ => .bind ?_ fun _ =>
      .bind .get fun _ => .modify fun _ => rfl
  · -- the parameters
    refine .forIn (fun p _ => ?_) _ _
    cases p
    exact .bind (addParam_keepsModule _) fun _ => .bind (defineLocal_keepsModule _ _) fun _ =>
      .bind (.modify fun _ => rfl) fun _ => .pure _
  · -- the declared locals
    refine .forIn (fun g _ => .bind .get fun _ => ?_) _ _
    dsimp only
    refine .ite (.throw_bind _ _) ?_
    split
    · refine .bind (.forIn_range (fun _ _ => ?_) _ _) fun _ => .pure _
      exact .bind .get fun _ => .bind (.modify fun _ => rfl) fun _ =>
        .bind (emit_keepsModule _ _ _) fun _ => .bind (defineLocal_keepsModule _ _) fun _ => .pure _
    · exact .throw_bind _ _

end Keeps

/-- Lowering reads block types from the module it was given. -/
theorem Lowers.module {m : Module} {sig : FuncType} {locals : List LocalGroup} {pre : List Instr}
    {s : Lowering} (h : Lowers m sig locals pre s) : s.module = m := by
  induction h with
  | start h => exact start_keepsModule locals _ _ _ h
  | step _ _ hstep ih => exact (instr_keepsModule _ _ _ _ hstep).trans ih

/-! ## Closing frames -/

/-- A value already made may go on top of the operand stack. -/
theorem Lowering.Coherent.pushStack {s : Lowering} (hc : s.Coherent) {v : Nat} (hv : v < s.values.size) :
    ({ s with stack := s.stack.push v, spare := appendSpare s.stack.size s.spare #[v] } : Lowering).Coherent := by
  refine hc.of_control rfl rfl rfl rfl rfl (fun w hw => ?_) (appendSpare_push_below hc.bounded.spare hv)
    hc.bounded.elseArgs
  rcases Array.mem_push.mp hw with hw | rfl
  · exact hc.bounded.stack w hw
  · exact hv

namespace Lowering.Wf

variable {s s' : Lowering} {E N S : List Nat} {fs : Array Frame} {f : Frame}

/-- Skipped code may count the constructs opened in it anew. -/
theorem setDeadDepth (hw : s.Wf) (hdead : s.unreachable = true) (d : Nat) :
    ({ s with deadDepth := d } : Lowering).Wf :=
  ⟨hw.coherent.of_control rfl rfl rfl rfl rfl hw.coherent.bounded.stack hw.coherent.bounded.spare hw.coherent.bounded.elseArgs,
    hw.entry, fun f hf => (hw.frames f hf).moves (Moves.of_same rfl rfl rfl rfl (Nat.le_refl _)
      (Nat.le_refl _) rfl) rfl (by simp) (by simp), hw.bottom, hw.distinct, hw.entryFree, hw.reach,
    hw.dangling, fun _ => hdead, hw.ended, hw.retParams, hw.retFree⟩

/-- The function's frame is the outermost: when it is the innermost too, it is the only one. -/
theorem function_alone (hw : s.Wf) (hfs : s.frames = fs.push f) (hkf : f.kind = .function) :
    fs = #[] := by
  have hb := hw.bottom fs.size (by simp [hfs])
  simp only [hfs, Array.getElem_push_eq] at hb
  exact Array.eq_empty_of_size_eq_zero (hb.mp hkf)

/-- The end of the function's frame, the only one open: steps that end only the current block of
live code, add no edge and seal nothing, and leave no frame and no code live, keep the invariant. -/
theorem finish (hw : s.Wf) (hfs : s.frames = #[f]) (hkf : f.kind = .function) (hc : s'.Coherent)
    (hm : Moves E [] [] s s') (hcurE : s.unreachable = false → s.cur ∈ E) (hframes : s'.frames = #[])
    (hdead : s'.unreachable = true) (hresults : s'.results = s.results)
    (hret : s'.retBlock = s.retBlock) (hsize : s'.blocks.size = s.blocks.size) : s'.Wf := by
  refine ⟨hc, Nat.lt_of_lt_of_le hw.entry hm.size, by simp [hframes], by simp [hframes],
    by simp [hframes, blocksOf], by simp [hframes, blocksOf], fun h => by simp [hdead] at h,
    fun j hj hnone => ?_, fun _ => hdead, fun _ => hdead, fun r hr => ?_, by simp [hframes, blocksOf]⟩
  · -- a block still open was dead already: the function's frame has no block to end
    have hold : j < s.blocks.size := hsize ▸ hj
    obtain ⟨hnone₀, hjE⟩ := (hm.term j hold).mp hnone
    rcases hw.dangling j hold hnone₀ with ⟨hlive, rfl⟩ | hp | ⟨h0, hpreds, -⟩
    · exact absurd (hcurE hlive) hjE
    · simp [hfs, pendingOf, Frame.pending, hkf] at hp
    · exact .inr (.inr ⟨h0, (hm.preds j hold (List.not_mem_nil)).trans hpreds, by simp [hframes, blocksOf]⟩)
  · rw [hret] at hr
    rw [(hm.ret r hr List.not_mem_nil).2, hresults]
    exact hw.retParams r hr

/-- Going on, at the end of the innermost frame `f`, in the block after it: steps that end only
the current block of live code and the else block of `f`, add edges only into the block after
it, and seal only blocks it names keep the invariant once `f` is closed. -/
theorem resume {s₅ : Lowering} (hw : s.Wf) (hfs : s.frames = fs.push f) (hkf : f.kind ≠ .function)
    (hc : s₅.Coherent) (hm : Moves E N S s s₅)
    (hE : ∀ j ∈ E, (s.unreachable = false ∧ j = s.cur) ∨ (f.kind = .ifNoElse ∧ j = f.header))
    (hcurE : s.unreachable = false → s.cur ∈ E) (hheader : f.kind = .ifNoElse → f.header ∈ E)
    (hN : ∀ j ∈ N, j = f.following) (hS : ∀ j ∈ S, j ∈ f.blocks) (hframes : s₅.frames = fs)
    (hresults : s₅.results = s.results) (hdepth : s₅.deadDepth = 0)
    (hret : s₅.retBlock = s.retBlock) (hsize : s₅.blocks.size = s.blocks.size)
    (h : (switchTo f.base f.following f.results.length).run s₅ = .ok ((), s')) :
    s'.Wf ∧ s'.frames = fs ∧ s'.deadDepth = 0 := by
  rw [switchTo_run] at h
  cases h
  obtain ⟨hfr, hnd, hfree⟩ := hw.top hfs
  have hfol := hfr.following hkf
  have hfolb : f.following ∈ f.blocks := Frame.mem_blocks.mpr (.inl ⟨hkf, rfl⟩)
  have hfolp : f.following ∈ f.pending := Frame.mem_pending.mpr (.inl ⟨hkf, rfl⟩)
  have hinner : ∀ j ∈ f.blocks, j ∈ blocksOf s.frames := fun j hj =>
    mem_blocksOf.mpr ⟨f, hfs ▸ Array.mem_push_self, hj⟩
  -- the block after the frame is ended by none of the steps
  have hfolE : f.following ∉ E := by
    intro hj
    rcases hE _ hj with ⟨hlive, hcur⟩ | ⟨hk, hhead⟩
    · exact (hw.reach hlive).2.2 (hcur ▸ mem_pendingOf.mpr ⟨f, hfs ▸ Array.mem_push_self, hfolp⟩)
    · have hblocks : f.blocks = [f.header, f.following] := by simp [Frame.blocks, hk]
      rw [hblocks] at hnd
      simp [hhead] at hnd
  have hfolopen : termAt s₅.blocks f.following = none := (hm.term _ hfol.lt).mpr ⟨hfol.unended, hfolE⟩
  refine ⟨hw.closeTop ?_ ?_ hfs (hframes.trans Array.append_empty.symm : s₅.frames = fs ++ #[]) hresults
    hdepth hkf (fun j hj => ?_) hcurE (fun j hj _ _ => hN j hj ▸ hinner _ hfolb)
    (fun j hj => hfree j (hS j hj)) (fun r hr hrS => hw.retFree r hr (hinner r (hS r hrS))) hret hsize
    (by simp) (by simp) (by simp [blocksOf]) (fun _ => ⟨hsize ▸ hfol.lt, hfolopen, ?_⟩)
    (fun j hj hnone => ?_), hframes, hdepth⟩
  · exact hc.of_control rfl rfl rfl rfl rfl (hc.bounded.switchTo_below _ _ _)
      (hc.bounded.switchTo_spare_below _ _ _) hc.bounded.elseArgs
  · exact hm.of_control rfl rfl rfl (.inl rfl)
  · rcases hE j hj with ⟨hlive, rfl⟩ | ⟨hk, rfl⟩
    · exact fun hp => (hw.reach hlive).2.2 (by rw [hfs, pendingOf_push]; exact List.mem_append_left _ hp)
    · exact fun hp => hfree _ (Frame.mem_blocks.mpr (.inr ⟨.inr hk, rfl⟩)) (mem_blocksOf_of_pending hp)
  · show f.following ∉ pendingOf s₅.frames
    rw [hframes]
    exact fun hp => hfree _ hfolb (mem_blocksOf_of_pending hp)
  · -- the block after the frame is current, and live exactly when an edge goes to it
    rcases Frame.mem_pending.mp hj with ⟨-, rfl⟩ | ⟨hk, rfl⟩
    · cases hlive : (s₅.states[f.following]?.getD {}).preds.isEmpty
      · exact .inl ⟨rfl, rfl⟩
      · rw [preds_isEmpty, List.isEmpty_iff] at hlive
        exact .inr (.inr ⟨hlive, by simp [blocksOf]⟩)
    · -- the else block was ended
      exact absurd ((hm.term _ (hfr.ifNoElse hk).1).mp hnone).2 (not_not.mpr (hheader hk))

/-- The end of a frame other than the function's, once its branch to the block after it is made
when live: the else block of an `if` without `else` branches there with the operands the `if`
kept, which fits when the `if` has as many parameters as results; the loop header and the block
after the frame are sealed; and code goes on there. -/
theorem closeFrame {s₂ : Lowering} (hw : s.Wf) (hfs : s.frames = fs.push f) (hkf : f.kind ≠ .function)
    (harity : f.kind = .ifNoElse → f.params.length = f.results.length) (hc : s₂.Coherent)
    (hm : Moves E N [] s s₂) (hE : ∀ j ∈ E, s.unreachable = false ∧ j = s.cur)
    (hcurE : s.unreachable = false → s.cur ∈ E) (hN : ∀ j ∈ N, j = f.following)
    (hframes : s₂.frames = fs) (hresults : s₂.results = s.results) (hdepth : s₂.deadDepth = 0)
    (hret : s₂.retBlock = s.retBlock) (hsize : s₂.blocks.size = s.blocks.size)
    (h : (match f.kind with
      | .loop => do
        Lower.sealBlock f.header
        Lower.sealBlock f.following
        Lower.switchTo f.base f.following f.results.length
      | .ifNoElse => do
        modify fun s : Lowering => { s with cur := f.header }
        Lower.terminate (.br ⟨f.following, f.elseArgs⟩)
        Lower.sealBlock f.following
        Lower.switchTo f.base f.following f.results.length
      | _ => do
        Lower.sealBlock f.following
        Lower.switchTo f.base f.following f.results.length : LowerM Unit).run
        { s₂ with unreachable := false } = .ok ((), s')) :
    s'.Wf ∧ s'.frames = fs ∧ s'.deadDepth = 0 := by
  obtain ⟨hfr, -, -⟩ := hw.top hfs
  have hfol := hfr.following hkf
  have hfolb : f.following ∈ f.blocks := Frame.mem_blocks.mpr (.inl ⟨hkf, rfl⟩)
  have hfollt : f.following < s₂.blocks.size := hsize ▸ hfol.lt
  have hc₃ : ({ s₂ with unreachable := false } : Lowering).Coherent :=
    hc.of_control rfl rfl rfl rfl rfl hc.bounded.stack hc.bounded.spare hc.bounded.elseArgs
  split at h
  · -- a loop: its header is sealed too
    rename_i hk
    simp only [StateT.run_bind] at h
    obtain ⟨⟨_, s₄⟩, h₄, h⟩ := bind_eq_ok h
    obtain ⟨⟨_, s₅⟩, h₅, h⟩ := bind_eq_ok h
    obtain ⟨hc₄, hg₄, -⟩ := hc₃.sealBlock (hsize ▸ (hfr.loop hk).1) h₄
    obtain ⟨hc₅, hg₅, -⟩ := hc₄.sealBlock (hg₄.blocks ▸ hfollt) h₅
    have hsame₄ := SameControl.of_grows hg₄
    have hsame₅ := SameControl.of_grows hg₅
    refine hw.resume hfs hkf hc₅ ((hm.trans_control (Moves.of_grows hg₄) rfl rfl rfl rfl).trans
      (Moves.of_grows hg₅)) (fun j hj => .inl (hE j (by simpa using hj)))
      (fun hlive => by simpa using hcurE hlive) (fun hk' => by simp [hk] at hk')
      (fun j hj => hN j (by simpa using hj)) (fun j hj => ?_) (hsame₅.frames.trans (hsame₄.frames.trans hframes))
      (hsame₅.results.trans (hsame₄.results.trans hresults)) (hsame₅.deadDepth.trans (hsame₄.deadDepth.trans hdepth))
      (hg₅.retBlock_eq.trans (hg₄.retBlock_eq.trans hret)) (hg₅.blocks.trans (hg₄.blocks.trans hsize)) h
    have hj : j = f.header ∨ j = f.following := by simpa using hj
    rcases hj with rfl | rfl
    · exact Frame.mem_blocks.mpr (.inr ⟨.inl hk, rfl⟩)
    · exact hfolb
  · -- an `if` without `else`: the else block passes the operands the `if` kept
    rename_i hk
    simp only [StateT.run_bind, modify_run, ok_bind] at h
    obtain ⟨⟨⟨⟩, s₄⟩, h₄, h₅₆⟩ := bind_eq_ok h
    obtain ⟨⟨⟨⟩, s₅⟩, h₅, h₆⟩ := bind_eq_ok h₅₆
    obtain ⟨hhlt, hhnone, hargs⟩ := hfr.ifNoElse hk
    have hhlt₂ : f.header < s₂.blocks.size := hsize ▸ hhlt
    have hhE : f.header ∉ E := fun hj => by
      obtain ⟨hlive, hcur⟩ := hE _ hj
      exact (hw.reach hlive).2.2 (hcur ▸ mem_pendingOf.mpr
        ⟨f, hfs ▸ Array.mem_push_self, Frame.mem_pending.mpr (.inr ⟨hk, rfl⟩)⟩)
    have hopen : termAt s₂.blocks f.header = none := (hm.term _ hhlt).mpr ⟨hhnone, hhE⟩
    -- the block after the `if` still takes one value per result
    have hfolparams : paramCount s₂.blocks f.following = f.results.length :=
      (hm.params _ hfol.lt List.not_mem_nil hfol.unsealed).trans hfol.params
    have hfits : ({ s₂ with unreachable := false, cur := f.header } : Lowering).Fits
        (.br ⟨f.following, f.elseArgs⟩) := by
      refine ⟨fun e he => ?_, ⟨by simp, fun e he v hv => ?_⟩, fun _ hv => by cases hv⟩
      all_goals simp only [Terminator.successors, List.mem_singleton] at he
      all_goals subst he
      · exact ⟨hfollt, by rw [hargs, harity hk]; exact hfolparams.symm⟩
      · exact Nat.lt_of_lt_of_le (hw.coherent.bounded.elseArgs f (hfs ▸ Array.mem_push_self) v hv) hm.values
    -- the else block, ended by its branch
    rw [terminate_run] at h₄
    simp only [Except.ok.injEq, Prod.mk.injEq, true_and] at h₄
    have hm₄ : Moves [f.header] [f.following] [] s₂ s₄ := by
      subst h₄
      exact (Moves.link hhlt₂ (.br ⟨f.following, f.elseArgs⟩)
        fun e he => hc.linked.sizes ▸ (hfits.targets e he).1).of_control rfl rfl rfl (.inl rfl)
    have hc₄ : s₄.Coherent := by
      subst h₄
      exact ((hc.of_control rfl rfl rfl rfl rfl hc.bounded.stack hc.bounded.spare hc.bounded.elseArgs :
        ({ s₂ with unreachable := false, cur := f.header } : Lowering).Coherent).link hhlt₂ hopen
          hfits).of_control rfl rfl rfl rfl rfl hc.bounded.stack hc.bounded.spare hc.bounded.elseArgs
    have hsame₄ : s₄.frames = s₂.frames ∧ s₄.results = s₂.results ∧ s₄.deadDepth = s₂.deadDepth ∧
        s₄.retBlock = s₂.retBlock ∧ s₄.blocks.size = s₂.blocks.size := by
      subst h₄
      simp
    obtain ⟨hc₅, hg₅, -⟩ := hc₄.sealBlock (Nat.lt_of_lt_of_le hfollt hm₄.size) h₅
    have hsame₅ := SameControl.of_grows hg₅
    refine hw.resume hfs hkf hc₅ ((hm.trans hm₄).trans (Moves.of_grows hg₅)) (fun j hj => ?_)
      (fun hlive => by simpa using .inl (hcurE hlive)) (fun _ => by simp) (fun j hj => ?_)
      (fun j hj => ?_) (hsame₅.frames.trans (hsame₄.1.trans hframes))
      (hsame₅.results.trans (hsame₄.2.1.trans hresults)) (hsame₅.deadDepth.trans (hsame₄.2.2.1.trans hdepth))
      (hg₅.retBlock_eq.trans (hsame₄.2.2.2.1.trans hret)) (hg₅.blocks.trans (hsame₄.2.2.2.2.trans hsize)) h₆
    · have hj : j ∈ E ∨ j = f.header := by simpa using hj
      rcases hj with hj | rfl
      · exact .inl (hE j hj)
      · exact .inr ⟨hk, rfl⟩
    · have hj : j ∈ N ∨ j = f.following := by simpa using hj
      rcases hj with hj | rfl
      · exact hN j hj
      · rfl
    · have hj : j = f.following := by simpa using hj
      exact hj ▸ hfolb
  · -- any other frame: only the block after it is sealed
    rename_i hk₁ hk₂
    simp only [StateT.run_bind] at h
    obtain ⟨⟨_, s₅⟩, h₅, h⟩ := bind_eq_ok h
    obtain ⟨hc₅, hg₅, -⟩ := hc₃.sealBlock hfollt h₅
    have hsame₅ := SameControl.of_grows hg₅
    refine hw.resume hfs hkf hc₅ (hm.trans_control (Moves.of_grows hg₅) rfl rfl rfl rfl)
      (fun j hj => .inl (hE j (by simpa using hj))) (fun hlive => by simpa using hcurE hlive)
      (fun hk => absurd hk hk₂) (fun j hj => hN j (by simpa using hj)) (fun j hj => ?_)
      (hsame₅.frames.trans hframes) (hsame₅.results.trans hresults) (hsame₅.deadDepth.trans hdepth)
      (hg₅.retBlock_eq.trans hret) (hg₅.blocks.trans hsize) h
    simp only [List.nil_append, List.mem_singleton] at hj
    exact hj ▸ hfolb

/-- `end` in skipped code takes one off the count of constructs opened there; any other closes the
innermost frame, returning from the function at its last `end`. It keeps the invariant when the
frame it closes, if an `if` without `else`, has as many parameters as results. -/
theorem endFrame (hw : s.Wf)
    (harity : s.deadDepth = 0 → ∀ f, s.frames.back? = some f → f.kind = .ifNoElse →
      f.params.length = f.results.length)
    (h : Lower.endFrame.run s = .ok ((), s')) :
    s'.Wf ∧ ((0 < s.deadDepth ∧ s' = { s with deadDepth := s.deadDepth - 1 }) ∨
      (s.deadDepth = 0 ∧ s'.deadDepth = 0 ∧ ∃ fs f, s.frames = fs.push f ∧ s'.frames = fs)) := by
  simp only [Lower.endFrame, StateT.run_bind, get_run, ok_bind] at h
  split at h
  · -- the end of a construct in skipped code
    rename_i hpos
    simp only [StateT.run_bind, set_run, ok_bind, pure_run] at h
    cases h
    exact ⟨hw.setDeadDepth (hw.dead hpos) _, .inl ⟨hpos, rfl⟩⟩
  rename_i hzero
  have hzero : s.deadDepth = 0 := by omega
  cases hfb : s.frames.back? with
  | none => simp only [hfb] at h; cases h
  | some f =>
    simp only [hfb, StateT.run_bind, modify_run, ok_bind] at h
    obtain ⟨fs, hfs⟩ := Array.back?_eq_some_iff.mp hfb
    obtain ⟨hfr, -, -⟩ := hw.top hfs
    have hpop : s.frames.pop = fs := by rw [hfs, Array.pop_push]
    have helse : ∀ g ∈ s.frames.pop, ∀ v ∈ g.elseArgs, v < s.values.size := fun g hg =>
      hw.coherent.bounded.elseArgs g (hfs ▸ Array.mem_push_of_mem f (hpop ▸ hg))
    have hc₁ : ({ s with frames := s.frames.pop } : Lowering).Coherent :=
      hw.coherent.of_control rfl rfl rfl rfl rfl hw.coherent.bounded.stack hw.coherent.bounded.spare helse
    split at h
    · -- the function's end returns the values on top of the stack when live, and ends the code
      rename_i hkf
      have hone : s.frames = #[f] := by rw [hfs, hw.function_alone hfs hkf]; rfl
      have hclosed : s.frames.pop = #[] := by rw [hone]; rfl
      split at h
      · rename_i hlive
        have hlive : s.unreachable = false := by simpa using hlive
        obtain ⟨hlt, hnone, -⟩ := hw.reach hlive
        simp only [StateT.run_bind] at h
        obtain ⟨⟨vals, s₁⟩, h₁, h⟩ := bind_eq_ok h
        obtain ⟨hn, rfl, rfl⟩ := peek_run _ h₁
        simp only [terminate_run, ok_bind, modify_run, pure_run] at h
        cases h
        have hfits : s.Fits (.ret (s.stack.extract (s.stack.size - f.results.length) s.stack.size).toList) :=
          ⟨by simp [Terminator.successors], ⟨fun _ hv v hmem => by cases hv; exact hw.top_below hmem,
            by simp [Terminator.successors]⟩, fun _ hv => by cases hv; rw [length_top hn, hfr.function hkf]⟩
        refine ⟨hw.finish hone hkf ((hw.coherent.link hlt hnone hfits).of_control rfl rfl rfl rfl rfl
          hw.coherent.bounded.stack hw.coherent.bounded.spare helse) ((Moves.link hlt (.ret (s.stack.extract (s.stack.size -
            f.results.length) s.stack.size).toList) (by simp [Terminator.successors])).of_control
              rfl rfl rfl (.inl rfl)) (fun _ => List.mem_singleton_self _) hclosed rfl rfl rfl (by simp),
          .inr ⟨hzero, hzero, fs, f, hfs, hpop⟩⟩
      · simp only [StateT.run_bind, modify_run, ok_bind, pure_run] at h
        cases h
        rename_i hdead
        have hdead : s.unreachable = true := by simpa using hdead
        exact ⟨hw.finish hone hkf (hc₁.of_control rfl rfl rfl rfl rfl hw.coherent.bounded.stack hw.coherent.bounded.spare helse)
          ((Moves.refl s).of_control rfl rfl rfl (.inl rfl)) (fun h => by simp [hdead] at h) hclosed rfl rfl
          rfl rfl, .inr ⟨hzero, hzero, fs, f, hfs, hpop⟩⟩
    · -- any other frame branches to the block after it when live, then closes
      rename_i hkf
      split at h
      · rename_i hlive
        have hlive : s.unreachable = false := by simpa using hlive
        obtain ⟨hlt, hnone, -⟩ := hw.reach hlive
        have hfol := hfr.following hkf
        simp only [StateT.run_bind] at h
        obtain ⟨⟨args, s₁⟩, h₁, h⟩ := bind_eq_ok h
        obtain ⟨hn, rfl, rfl⟩ := peek_run _ h₁
        obtain ⟨⟨⟨⟩, s₂⟩, h₂, h₃⟩ := bind_eq_ok h
        rw [modify_run, ok_bind] at h₃
        have hfits : s.Fits (.br ⟨f.following,
            (s.stack.extract (s.stack.size - f.results.length) s.stack.size).toList⟩) := by
          refine ⟨fun e he => ?_, ⟨by simp, fun e he v hv => ?_⟩, fun _ h => by cases h⟩
          all_goals simp only [Terminator.successors, List.mem_singleton] at he
          all_goals subst he
          · exact ⟨hfol.lt, by rw [length_top hn, hfol.params]⟩
          · exact hw.top_below hv
        rw [terminate_run] at h₂
        simp only [Except.ok.injEq, Prod.mk.injEq, true_and] at h₂
        have hm₂ : Moves [s.cur] [f.following] [] s s₂ := by
          subst h₂
          exact (Moves.link hlt _ fun e he => hw.coherent.linked.sizes ▸ (hfits.targets e he).1).of_control
            rfl rfl rfl (.inl rfl)
        have hc₂ : s₂.Coherent := by
          subst h₂
          exact (hw.coherent.link hlt hnone hfits).of_control rfl rfl rfl rfl rfl hw.coherent.bounded.stack hw.coherent.bounded.spare
            helse
        have hsame₂ : s₂.frames = fs ∧ s₂.results = s.results ∧ s₂.deadDepth = 0 ∧
            s₂.retBlock = s.retBlock ∧ s₂.blocks.size = s.blocks.size := by
          subst h₂
          simpa using ⟨hpop, hzero⟩
        obtain ⟨hw', hframes', hdepth'⟩ := hw.closeFrame hfs hkf (harity hzero f hfb) hc₂ hm₂
          (fun j hj => ⟨hlive, List.mem_singleton.mp hj⟩) (fun _ => List.mem_singleton_self _)
          (fun j hj => List.mem_singleton.mp hj) hsame₂.1 hsame₂.2.1 hsame₂.2.2.1 hsame₂.2.2.2.1
          hsame₂.2.2.2.2 h₃
        exact ⟨hw', .inr ⟨hzero, hdepth', fs, f, hfs, hframes'⟩⟩
      · -- skipped code after a branch: the frame closes all the same
        rename_i hdead
        have hdead : s.unreachable = true := by simpa using hdead
        rw [StateT.run_bind, modify_run, ok_bind] at h
        obtain ⟨hw', hframes', hdepth'⟩ := hw.closeFrame hfs hkf (harity hzero f hfb) hc₁
          ((Moves.refl s).of_control rfl rfl rfl (.inl rfl)) (fun j hj => by cases hj)
          (fun h => by simp [hdead] at h) (fun j hj => by cases hj) hpop rfl hzero rfl rfl h
        exact ⟨hw', .inr ⟨hzero, hdepth', fs, f, hfs, hframes'⟩⟩

/-! ## Live steps that keep the frames -/

/-- Returning the values on top of the stack from live code, one per result. -/
theorem returnTop (hw : s.Wf) (hlive : s.unreachable = false)
    (h : (do let vals ← peek (← get).results.length; Lower.terminate (.ret vals) : LowerM Unit).run s =
      .ok ((), s')) :
    s'.Wf ∧ s'.frames = s.frames ∧ s'.deadDepth = s.deadDepth := by
  simp only [StateT.run_bind, get_run, ok_bind] at h
  obtain ⟨⟨vals, s₁⟩, h₁, h⟩ := bind_eq_ok h
  obtain ⟨hn, rfl, rfl⟩ := peek_run s h₁
  exact hw.terminate hlive ⟨by simp [Terminator.successors], ⟨fun _ hv v hmem => by
    cases hv; exact hw.top_below hmem, by simp [Terminator.successors]⟩,
      fun _ hv => by cases hv; exact length_top hn⟩ (by simp [Terminator.successors]) h

/-- An operator takes its operands off the stack, runs in the current block and pushes its
results. -/
theorem operator (hw : s.Wf) (hlive : s.unreachable = false) {op : UInt8} {imm : Option Imm}
    (h : (Lower.operator op imm).run s = .ok ((), s')) :
    s'.Wf ∧ s'.frames = s.frames ∧ s'.deadDepth = s.deadDepth ∧ s'.unreachable = s.unreachable := by
  simp only [Lower.operator, StateT.run_bind] at h
  obtain ⟨⟨⟨n, results⟩, s₁⟩, h₁, h⟩ := bind_eq_ok h
  have hs₁ := effect_state h₁
  subst s₁
  obtain ⟨⟨args, s₂⟩, h₂, h⟩ := bind_eq_ok h
  obtain ⟨-, rfl, rfl⟩ := pop_run s h₂
  obtain ⟨⟨vs, s₃⟩, h₃, h⟩ := bind_eq_ok h
  -- the operands taken off, then the operator emitted into the current block
  have hw₂ := hw.popOperands hlive (s.stack.size - n)
  obtain ⟨hc₃, hm₃, hvs⟩ := hw₂.coherent.emit (fun v hv => hw.top_below hv) h₃
  obtain ⟨picks, -, rfl, -⟩ := emit_run _ h₃
  obtain ⟨sp, hrun, hsp⟩ := forIn_push_run vs _
  rw [hrun] at h
  cases h
  refine ⟨hw₂.keepControl hlive ?_ ?_ (by simp) ⟨_, _, _, _, _, rfl⟩, rfl, rfl, rfl⟩
  · refine hc₃.of_control rfl rfl rfl rfl rfl (fun v hv => ?_) (hsp _ hc₃.bounded.spare hvs)
      hc₃.bounded.elseArgs
    rcases Array.mem_append.mp hv with hv | hv
    · exact hc₃.bounded.stack v hv
    · exact hvs v (by simpa using hv)
  · exact hm₃.of_control rfl rfl rfl (.inl rfl)

/-- A tail call runs as an operator, then returns its results. -/
theorem returnCall (hw : s.Wf) (hlive : s.unreachable = false) {op : UInt8} {imm : Option Imm}
    (h : (do Lower.operator op imm; let vals ← peek (← get).results.length; Lower.terminate (.ret vals) :
      LowerM Unit).run s = .ok ((), s')) :
    s'.Wf ∧ s'.frames = s.frames ∧ s'.deadDepth = s.deadDepth := by
  rw [StateT.run_bind] at h
  obtain ⟨⟨⟨⟩, s₁⟩, h₁, h⟩ := bind_eq_ok h
  obtain ⟨hw₁, hframes₁, hdepth₁, hlive₁⟩ := hw.operator hlive h₁
  obtain ⟨hw', hframes', hdepth'⟩ := hw₁.returnTop (hlive₁.trans hlive) h
  exact ⟨hw', hframes'.trans hframes₁, hdepth'.trans hdepth₁⟩

/-- The current block of live code is not the block that returns, which is ended. -/
theorem retBlock_ne_cur (hw : s.Wf) (hlive : s.unreachable = false) : s.retBlock ≠ some s.cur := by
  intro hr
  obtain ⟨-, vals, hvals⟩ := hw.coherent.linked.ret _ hr
  rw [(hw.reach hlive).2.1] at hvals
  cases hvals

/-- Reading a local in the current block of live code and pushing its value. -/
theorem pushLocal (hw : s.Wf) (hlive : s.unreachable = false) {fuel : Nat} {idx : UInt32} {v : Nat}
    {s₁ : Lowering} (h : (readLocal fuel s.cur idx).run s = .ok (v, s₁)) :
    ({ s₁ with stack := s₁.stack.push v, spare := appendSpare s₁.stack.size s₁.spare #[v] } :
      Lowering).Wf := by
  obtain ⟨hc₁, hg₁, hv⟩ := hw.coherent.readLocal (hw.reach hlive).1 (hw.retBlock_ne_cur hlive) h
  obtain ⟨bs, vs, sts, rfl⟩ := hg₁.rest
  refine hw.keepControl hlive (hc₁.pushStack hv) ?_ hg₁.blocks ⟨_, _, _, _, _, rfl⟩
  exact (Moves.of_grows hg₁).of_control rfl rfl rfl (.inl rfl)

/-- Setting a local of the current block of live code to the operand on top of the stack, which a
`tee` leaves in place. -/
theorem setLocal (hw : s.Wf) (hlive : s.unreachable = false) {idx : UInt32} (tee : Prop) [Decidable tee]
    (h : (do
      let args ← Lower.pop 1
      let v := args.headD 0
      Lower.defineLocal (← get).cur idx v
      if tee then Lower.push v : LowerM Unit).run s = .ok ((), s')) : s'.Wf := by
  simp only [StateT.run_bind] at h
  obtain ⟨⟨args, s₁⟩, h₁, h⟩ := bind_eq_ok h
  obtain ⟨hn, rfl, rfl⟩ := pop_run s h₁
  have hw₁ := hw.popOperands hlive (s.stack.size - 1)
  -- the operand taken off is made
  have hv : (s.stack.extract (s.stack.size - 1) s.stack.size).toList.headD 0 < s.values.size := by
    cases htop : (s.stack.extract (s.stack.size - 1) s.stack.size).toList with
    | nil =>
      have hlen := congrArg List.length htop
      simp only [Array.length_toList, Array.size_extract, List.length_nil] at hlen
      omega
    | cons v _ => exact hw.top_below (htop ▸ List.mem_cons_self)
  obtain ⟨hc₂, hm₂⟩ := hw₁.coherent.defineLocal s.cur idx hv (defineLocal_run _ _ _ _)
  simp only [get_run, ok_bind, Lower.defineLocal, modifyState_run] at h
  split at h
  · rw [push_run] at h
    cases h
    refine hw₁.keepControl hlive (hc₂.pushStack hv) ?_ (by simp) ⟨_, _, _, _, _, rfl⟩
    exact hm₂.of_control rfl rfl rfl (.inl rfl)
  · rw [pure_run] at h
    cases h
    exact hw₁.keepControl hlive hc₂ hm₂ (by simp) ⟨_, _, _, _, _, rfl⟩

/-! ## Every instruction -/

/-- Every instruction keeps the invariant; an `end` needs the `if` it closes without `else` to
have as many parameters as results. -/
theorem instr (hw : s.Wf) {ins : Instr}
    (harity : ins.op = 0x0b → s.deadDepth = 0 → ∀ f, s.frames.back? = some f → f.kind = .ifNoElse →
      f.params.length = f.results.length)
    (h : (Lower.instr ins).run s = .ok ((), s')) : s'.Wf := by
  unfold Lower.instr at h
  split at h
  case h_4 => exact (hw.elseBranch h).1
  case h_5 hop => exact (hw.endFrame (harity hop) h).1
  case h_6 =>
    simp only [StateT.run_bind, get_run, ok_bind] at h
    split at h
    · rw [pure_run] at h
      cases h
      exact hw
    rename_i hlive
    have hlive : s.unreachable = false := by simpa using hlive
    split at h
    · -- nop
      rw [pure_run] at h
      cases h
      exact hw
    · -- unreachable
      have hfits : s.Fits .unreachable :=
        ⟨by simp [Terminator.successors], ⟨fun _ hv => (by cases hv), by simp [Terminator.successors]⟩,
          fun _ hv => (by cases hv)⟩
      exact (hw.terminate hlive hfits (by simp [Terminator.successors]) h).1
    · exact (hw.br hlive h).1
    · exact (hw.brIf hlive h).1
    · exact (hw.brTable hlive h).1
    · exact (hw.returnTop hlive h).1
    · -- drop
      obtain ⟨⟨l, s₁⟩, h₁, h⟩ := bind_eq_ok
        (show (Lower.pop 1).run s >>= (fun p => .ok ((), p.2)) = .ok ((), s') from h)
      obtain ⟨-, rfl, rfl⟩ := pop_run s h₁
      cases h
      exact hw.popOperands hlive _
    · -- local.get
      simp only [StateT.run_bind, get_run, ok_bind] at h
      split at h
      · cases h
      simp only [StateT.run_bind, lookupFuel_run, get_run, ok_bind] at h
      obtain ⟨⟨v, s₁⟩, h₁, h⟩ := bind_eq_ok h
      rw [push_run] at h
      cases h
      exact hw.pushLocal hlive h₁
    · -- local.set
      simp only [StateT.run_bind, get_run, ok_bind] at h
      split at h
      · cases h
      exact hw.setLocal hlive (ins.op = 34) h
    · -- local.tee
      simp only [StateT.run_bind, get_run, ok_bind] at h
      split at h
      · cases h
      exact hw.setLocal hlive True h
    · exact (hw.returnCall hlive h).1
    · exact (hw.returnCall hlive h).1
    · exact (hw.operator hlive h).1
  all_goals
    -- a block, a loop or an `if`: only counted in skipped code
    simp only [StateT.run_bind, get_run, ok_bind] at h
    split at h
    · rename_i hdead
      rw [set_run] at h
      cases h
      exact hw.setDeadDepth hdead _
    rename_i hlive
    have hlive : s.unreachable = false := by simpa using hlive
    split at h
    · exact (hw.enter hlive h).1
    · cases h

end Lowering.Wf

end WasmImage.Ssa
