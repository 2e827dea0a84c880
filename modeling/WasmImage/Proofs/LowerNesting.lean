import WasmImage.Proofs.Lowered

/-!
# Nesting while lowering

Lowering keeps one control frame for each construct open in live code. In code skipped after a
branch it opens no frame: it counts the blocks, loops and `if`s opened there in `deadDepth`, and
an `end` there takes one off the count. The frames and the count together follow the nesting of
the instructions: after every instruction lowered, the frames, the count and the ends seen make
one (the function's frame) plus the constructs opened (`Lowers.nesting`). While the count is
positive the code stays skipped, and an `else` or `end` there leaves the frames, the operand stack
and the current block as they were.

Every step of lowering but entering a construct, its `else` and its `end` leaves the frames and the
count alone (`KeepsNesting`); this follows from the few things a step does to the state, put
together by `bind`, conditionals and loops.
-/

namespace WasmImage.Wasm.Instr

/-- Whether `ins` opens a construct: a block, a loop or an `if`. -/
def opens (ins : Instr) : Bool := ins.op == 0x02 || ins.op == 0x03 || ins.op == 0x04

/-- Whether `ins` is an `end`. -/
def ends (ins : Instr) : Bool := ins.op == 0x0b

end WasmImage.Wasm.Instr

namespace WasmImage.Ssa

open Wasm Lower

/-- `s'` has the control frames of `s` and its count of constructs opened in skipped code. -/
structure SameNesting (s s' : Lowering) : Prop where
  frames : s'.frames = s.frames
  deadDepth : s'.deadDepth = s.deadDepth

theorem SameNesting.refl (s : Lowering) : SameNesting s s := ⟨rfl, rfl⟩

theorem SameNesting.trans {s₁ s₂ s₃ : Lowering} (h₁ : SameNesting s₁ s₂) (h₂ : SameNesting s₂ s₃) :
    SameNesting s₁ s₃ :=
  ⟨h₂.frames.trans h₁.frames, h₂.deadDepth.trans h₁.deadDepth⟩

/-- Every run of `x` that succeeds leaves the nesting as it was. -/
def KeepsNesting {α : Type} (x : LowerM α) : Prop :=
  ∀ s a s', x.run s = .ok (a, s') → SameNesting s s'

namespace KeepsNesting

variable {α β : Type}

theorem of_run {x : LowerM α} {g : Lowering → α × Lowering} (hx : ∀ s, x.run s = .ok (g s))
    (hg : ∀ s, SameNesting s (g s).2) : KeepsNesting x := by
  intro s a s' h
  rw [hx] at h
  injection h with h
  simpa only [h] using hg s

theorem pure (a : α) : KeepsNesting (Pure.pure a : LowerM α) :=
  of_run (fun s => pure_run s a) fun _ => ⟨rfl, rfl⟩

theorem throw (e : LowerFault) : KeepsNesting (MonadExcept.throw e : LowerM α) := by
  intro s a s' h
  cases h

theorem throw_bind (e : LowerFault) (f : α → LowerM β) : KeepsNesting (MonadExcept.throw e >>= f) := by
  intro s a s' h
  cases h

theorem get : KeepsNesting (MonadState.get : LowerM Lowering) :=
  of_run get_run fun _ => ⟨rfl, rfl⟩

theorem modify {f : Lowering → Lowering} (hf : ∀ s, SameNesting s (f s)) :
    KeepsNesting (modify f : LowerM PUnit) :=
  of_run (fun s => modify_run s f) hf

theorem bind {x : LowerM α} {f : α → LowerM β} (hx : KeepsNesting x) (hf : ∀ a, KeepsNesting (f a)) :
    KeepsNesting (x >>= f) := by
  intro s b s' h
  rw [StateT.run_bind] at h
  obtain ⟨⟨a, s₁⟩, h₁, h₂⟩ := bind_eq_ok h
  exact (hx s a s₁ h₁).trans (hf a s₁ b s' h₂)

theorem map (f : α → β) {x : LowerM α} (hx : KeepsNesting x) : KeepsNesting (f <$> x) := by
  intro s b s' h
  rw [StateT.run_map] at h
  obtain ⟨⟨a, s₁⟩, h₁, h₂⟩ := map_eq_ok h
  cases h₂
  exact hx s a s₁ h₁

theorem ite {c : Prop} [Decidable c] {x y : LowerM α} (hx : KeepsNesting x) (hy : KeepsNesting y) :
    KeepsNesting (if c then x else y) := by
  split
  exacts [hx, hy]

theorem dite {c : Prop} [Decidable c] {x : c → LowerM α} {y : ¬c → LowerM α}
    (hx : ∀ h, KeepsNesting (x h)) (hy : ∀ h, KeepsNesting (y h)) :
    KeepsNesting (if h : c then x h else y h) := by
  split
  exacts [hx _, hy _]

theorem forIn {f : α → β → LowerM (ForInStep β)} (hf : ∀ a b, KeepsNesting (f a b)) :
    ∀ (l : List α) (b : β), KeepsNesting (forIn l b f)
  | [], b => pure b
  | a :: l, b => by
    rw [List.forIn_cons]
    refine bind (hf a b) fun r => ?_
    cases r with
    | done b' => exact pure b'
    | yield b' => exact forIn hf l b'

theorem forIn_array {f : α → β → LowerM (ForInStep β)} (hf : ∀ a b, KeepsNesting (f a b))
    (xs : Array α) (b : β) : KeepsNesting (ForIn.forIn xs b f) := by
  rw [← Array.forIn_toList]
  exact forIn hf xs.toList b

theorem forIn_range {f : Nat → β → LowerM (ForInStep β)} (hf : ∀ i b, KeepsNesting (f i b)) (n : Nat)
    (b : β) : KeepsNesting (ForIn.forIn [:n] b f) := by
  rw [Std.Legacy.Range.forIn_eq_forIn_range']
  exact forIn hf _ b

/-- A run of `x` then `f`, from a state with the nesting of `s₀`, goes through another such
state. -/
theorem run_bind {x : LowerM α} {f : α → LowerM β} (hx : KeepsNesting x) {s₀ s s' : Lowering} {b : β}
    (h₀ : SameNesting s₀ s) (h : (x >>= f).run s = .ok (b, s')) :
    ∃ a s₁, SameNesting s₀ s₁ ∧ (f a).run s₁ = .ok (b, s') := by
  rw [StateT.run_bind] at h
  obtain ⟨⟨a, s₁⟩, h₁, h₂⟩ := bind_eq_ok h
  exact ⟨a, s₁, h₀.trans (hx s a s₁ h₁), h₂⟩

theorem mapM {f : α → LowerM β} (hf : ∀ a, KeepsNesting (f a)) :
    ∀ l : List α, KeepsNesting (l.mapM f)
  | [] => pure []
  | a :: l => by
    rw [List.mapM_cons]
    exact bind (hf a) fun _ => bind (mapM hf l) fun _ => pure _

end KeepsNesting

/-! ## Steps that keep the nesting -/

section Keeps

variable {blk : Nat}

theorem newBlock_keepsNesting : KeepsNesting newBlock := .of_run newBlock_run fun _ => ⟨rfl, rfl⟩

theorem newValue_keepsNesting (d : ValueDef) : KeepsNesting (newValue d) :=
  .of_run (fun s => newValue_run s d) fun _ => ⟨rfl, rfl⟩

theorem modifyBlock_keepsNesting (f : Block → Block) : KeepsNesting (modifyBlock blk f) :=
  .of_run (fun s => modifyBlock_run s blk f) fun _ => ⟨rfl, rfl⟩

theorem modifyState_keepsNesting (f : BlockState → BlockState) : KeepsNesting (modifyState blk f) :=
  .of_run (fun s => modifyState_run s blk f) fun _ => ⟨rfl, rfl⟩

theorem blockAt_keepsNesting : KeepsNesting (blockAt blk) :=
  .of_run (fun s => blockAt_run s blk) fun _ => ⟨rfl, rfl⟩

theorem stateAt_keepsNesting : KeepsNesting (stateAt blk) :=
  .of_run (fun s => stateAt_run s blk) fun _ => ⟨rfl, rfl⟩

theorem addParam_keepsNesting (t : ValType) : KeepsNesting (addParam blk t) :=
  .of_run (fun s => addParam_run s blk t) fun _ => ⟨rfl, rfl⟩

theorem defineLocal_keepsNesting (idx : UInt32) (v : Nat) : KeepsNesting (defineLocal blk idx v) :=
  .of_run (fun s => defineLocal_run s blk idx v) fun _ => ⟨rfl, rfl⟩

theorem push_keepsNesting (v : Nat) : KeepsNesting (push v) :=
  .of_run (fun s => push_run s v) fun _ => ⟨rfl, rfl⟩

theorem dup_keepsNesting (n : Nat) : KeepsNesting (dup n) :=
  .of_run (fun s => dup_run s n) fun _ => ⟨rfl, rfl⟩

theorem lookupFuel_keepsNesting : KeepsNesting lookupFuel := .of_run lookupFuel_run fun _ => ⟨rfl, rfl⟩

theorem switchTo_keepsNesting (base n : Nat) : KeepsNesting (switchTo base blk n) :=
  .of_run (fun s => switchTo_run s base blk n) fun _ => ⟨rfl, rfl⟩

theorem terminate_keepsNesting (t : Terminator) : KeepsNesting (terminate t) :=
  .of_run (fun s => terminate_run s t) fun _ => ⟨rfl, rfl⟩

theorem pop_keepsNesting (n : Nat) : KeepsNesting (pop n) := by
  intro s l s' h
  obtain ⟨-, -, rfl⟩ := pop_run s h
  exact ⟨rfl, rfl⟩

theorem peek_keepsNesting (n : Nat) : KeepsNesting (peek n) := by
  intro s l s' h
  obtain ⟨-, -, rfl⟩ := peek_run s h
  exact ⟨rfl, rfl⟩

theorem emit_keepsNesting (o : Operator) (args : List Nat) (results : List ValType) :
    KeepsNesting (emit o args results) := by
  intro s vs s' h
  obtain ⟨-, -, rfl, -⟩ := emit_run s h
  exact ⟨rfl, rfl⟩

/-- Reading a local and passing it along edges, at every fuel: by induction on the fuel, which
both calls lower by one. -/
theorem readLocal_addPredArgs_keepsNesting : ∀ fuel : Nat,
    (∀ blk idx, KeepsNesting (readLocal fuel blk idx)) ∧
      ∀ blk idx, KeepsNesting (addPredArgs fuel blk idx)
  | 0 => ⟨fun blk idx => by rw [readLocal]; exact .throw _,
      fun blk idx => by rw [addPredArgs]; exact .throw _⟩
  | fuel + 1 => by
    obtain ⟨hread, hpass⟩ := readLocal_addPredArgs_keepsNesting fuel
    constructor
    · intro blk idx
      rw [readLocal]
      refine .bind stateAt_keepsNesting fun st => ?_
      split
      · exact .pure _
      refine .bind .get fun s => ?_
      refine .ite ?_ (.dite (fun _ => ?_) fun _ => ?_)
      · exact .bind (newValue_keepsNesting _) fun v =>
          .bind (modifyState_keepsNesting _) fun _ => .pure v
      · exact .bind (hread _ idx) fun v => .bind (defineLocal_keepsNesting idx v) fun _ => .pure v
      · exact .bind (addParam_keepsNesting _) fun v => .bind (defineLocal_keepsNesting idx v) fun _ =>
          .bind (hpass blk idx) fun _ => .pure v
    · intro blk idx
      rw [addPredArgs]
      refine .bind stateAt_keepsNesting fun st =>
        .bind (.forIn_array (fun p _ => ?_) _ _) fun _ => .pure _
      exact .bind (hread _ idx) fun v => .bind (modifyBlock_keepsNesting _) fun _ => .pure _

theorem sealBlock_keepsNesting : KeepsNesting (sealBlock blk) := by
  unfold sealBlock
  refine .bind stateAt_keepsNesting fun st => .ite (.pure _) ?_
  refine .bind (modifyState_keepsNesting _) fun _ =>
    .bind (.forIn_array (fun p _ => ?_) _ _) fun _ => .pure _
  exact .bind blockAt_keepsNesting fun _ => .bind (.modify fun _ => ⟨rfl, rfl⟩) fun _ =>
    .bind (modifyBlock_keepsNesting _) fun _ => .bind lookupFuel_keepsNesting fun fuel =>
      .bind ((readLocal_addPredArgs_keepsNesting fuel).2 blk _) fun _ => .pure _

theorem returnBlock_keepsNesting : KeepsNesting returnBlock := by
  unfold returnBlock
  refine .bind .get fun s => ?_
  split
  · exact .pure _
  exact .bind newBlock_keepsNesting fun blk => .bind .get fun _ =>
    .bind (.mapM (fun _ => addParam_keepsNesting _) _) fun _ => .bind sealBlock_keepsNesting fun _ =>
      .bind (modifyBlock_keepsNesting _) fun _ => .bind (.modify fun _ => ⟨rfl, rfl⟩) fun _ => .pure _

theorem target_keepsNesting (label : UInt32) : KeepsNesting (target label) := by
  unfold target
  refine .bind .get fun s => .ite (.throw _) ?_
  split
  · -- the frame the label names
    dsimp only
    split
    · exact .bind returnBlock_keepsNesting fun _ => .pure _
    · exact .pure _
    · exact .pure _
  · exact .throw _

theorem br_keepsNesting (label : UInt32) : KeepsNesting (br label) := by
  unfold br
  refine .bind .get fun s => .ite ?_ ?_
  · exact .bind (peek_keepsNesting _) fun _ => terminate_keepsNesting _
  · exact .bind (target_keepsNesting label) fun _ => .bind (peek_keepsNesting _) fun _ =>
      terminate_keepsNesting _

theorem brIf_keepsNesting (label : UInt32) : KeepsNesting (brIf label) := by
  unfold brIf
  exact .bind (pop_keepsNesting 1) fun _ => .bind (target_keepsNesting label) fun _ =>
    .bind (peek_keepsNesting _) fun _ => .bind newBlock_keepsNesting fun _ =>
      .bind (terminate_keepsNesting _) fun _ => .bind sealBlock_keepsNesting fun _ =>
        .modify fun _ => ⟨rfl, rfl⟩

theorem brTable_keepsNesting (labels : List UInt32) (default : UInt32) :
    KeepsNesting (brTable labels default) := by
  unfold brTable
  refine .bind (pop_keepsNesting 1) fun _ => .ite (br_keepsNesting default) ?_
  refine .bind (target_keepsNesting default) fun _ => .bind (peek_keepsNesting _) fun _ =>
    .bind (.forIn (fun label _ => ?_) _ _) fun _ => terminate_keepsNesting _
  exact .bind (target_keepsNesting label) fun _ => .ite (.throw _) (.bind (dup_keepsNesting _) fun _ => .pure _)

theorem effect_keepsNesting (op : UInt8) (imm : Option Imm) : KeepsNesting (effect op imm) := by
  unfold effect
  split
  · exact .pure _
  refine .ite (.pure _) (.ite (.pure _) (.bind .get fun s => ?_))
  dsimp only
  -- every operator reads the module or the stack, and changes nothing
  split <;> (try split) <;> first
    | exact .pure _
    | exact .throw _
    | exact .bind .get fun _ => .ite (.bind (.throw _) fun _ => .pure _) (.pure _)

theorem operator_keepsNesting (op : UInt8) (imm : Option Imm) : KeepsNesting (operator op imm) := by
  unfold operator
  refine .bind (effect_keepsNesting op imm) fun (n, results) => ?_
  exact .bind (pop_keepsNesting n) fun _ => .bind (emit_keepsNesting _ _ _) fun vs =>
    .bind (.forIn (fun v _ => .bind (push_keepsNesting v) fun _ => .pure _) vs _) fun _ => .pure _

end Keeps

/-! ## Steps that change the nesting -/

section Changes

variable {s s' : Lowering}

/-- Entering a block, a loop or an `if` pushes one frame. -/
theorem enter_nesting {op : UInt8} {params results : List ValType}
    (h : (enter op params results).run s = .ok ((), s')) :
    ∃ fr, s'.frames = s.frames.push fr ∧ s'.deadDepth = s.deadDepth := by
  have addParams : ∀ (blk : Nat) (ts : List ValType), KeepsNesting
      (forIn ts PUnit.unit fun t _ => do
        let _ ← addParam blk t
        pure (ForInStep.yield PUnit.unit) : LowerM PUnit) := fun blk ts =>
    .forIn (fun _ _ => .bind (addParam_keepsNesting _) fun _ => .pure _) ts _
  unfold enter at h
  simp only [StateT.run_bind, get_run, ok_bind] at h
  split at h
  · cases h
  split at h
  · -- a block: its following block, then the frame
    obtain ⟨_, s₁, hs, h⟩ := newBlock_keepsNesting.run_bind (.refl s) h
    obtain ⟨_, s₂, hs, h⟩ := (addParams _ _).run_bind hs h
    rw [modify_run] at h
    cases h
    exact ⟨_, by rw [hs.frames], hs.deadDepth⟩
  · -- a loop: its header and following block, the branch into the header, the frame, and the
    -- header to go on in
    obtain ⟨_, s₁, hs, h⟩ := newBlock_keepsNesting.run_bind (.refl s) h
    obtain ⟨_, s₂, hs, h⟩ := newBlock_keepsNesting.run_bind hs h
    obtain ⟨_, s₃, hs, h⟩ := (addParams _ _).run_bind hs h
    obtain ⟨_, s₄, hs, h⟩ := (addParams _ _).run_bind hs h
    obtain ⟨_, s₅, hs, h⟩ := (dup_keepsNesting _).run_bind hs h
    obtain ⟨_, s₆, hs, h⟩ := (terminate_keepsNesting _).run_bind hs h
    rw [StateT.run_bind, modify_run, ok_bind] at h
    have hlast := switchTo_keepsNesting _ _ _ _ _ h
    exact ⟨_, by rw [hlast.frames, hs.frames], hlast.deadDepth.trans hs.deadDepth⟩
  · -- an `if`: its condition, the then, else and following blocks, the branch on the condition,
    -- and the frame
    obtain ⟨_, s₁, hs, h⟩ := (pop_keepsNesting 1).run_bind (.refl s) h
    split at h
    · cases h
    obtain ⟨_, s₂, hs, h⟩ := newBlock_keepsNesting.run_bind hs h
    obtain ⟨_, s₃, hs, h⟩ := newBlock_keepsNesting.run_bind hs h
    obtain ⟨_, s₄, hs, h⟩ := newBlock_keepsNesting.run_bind hs h
    obtain ⟨_, s₅, hs, h⟩ := (addParams _ _).run_bind hs h
    obtain ⟨_, s₆, hs, h⟩ := (dup_keepsNesting _).run_bind hs h
    obtain ⟨_, s₇, hs, h⟩ := (terminate_keepsNesting _).run_bind hs h
    obtain ⟨_, s₈, hs, h⟩ := sealBlock_keepsNesting.run_bind hs h
    obtain ⟨_, s₉, hs, h⟩ := sealBlock_keepsNesting.run_bind hs h
    rw [modify_run] at h
    cases h
    exact ⟨_, by rw [hs.frames], hs.deadDepth⟩

/-- An `else` in skipped code with constructs opened there does nothing; any other replaces the
innermost frame by one with an `else`. -/
theorem elseBranch_nesting (h : elseBranch.run s = .ok ((), s')) :
    (s.unreachable = true ∧ 0 < s.deadDepth ∧ s' = s) ∨
      (¬(s.unreachable = true ∧ 0 < s.deadDepth) ∧ s'.frames.size = s.frames.size ∧
        s'.deadDepth = s.deadDepth) := by
  unfold elseBranch at h
  simp only [StateT.run_bind, get_run, ok_bind] at h
  split at h
  · rename_i hskip
    rw [pure_run] at h
    cases h
    simp only [Bool.and_eq_true, decide_eq_true_eq] at hskip
    exact .inl ⟨hskip.1, hskip.2, rfl⟩
  rename_i hlive
  simp only [Bool.and_eq_true, decide_eq_true_eq] at hlive
  cases hf : s.frames.back? with
  | none =>
    simp only [hf] at h
    cases h
  | some f =>
    simp only [hf] at h
    split at h
    · cases h
    rw [StateT.run_bind, modify_run, ok_bind] at h
    -- the innermost frame replaced, the rest keeps the frames
    have hrest := (by
      exact .ite (.bind (peek_keepsNesting _) fun _ => .bind (terminate_keepsNesting _) fun _ =>
        .modify fun _ => ⟨rfl, rfl⟩) (.modify fun _ => ⟨rfl, rfl⟩) : KeepsNesting _) _ _ _ h
    obtain ⟨fs, hfs⟩ := Array.back?_eq_some_iff.mp hf
    refine .inr ⟨hlive, ?_, hrest.deadDepth⟩
    rw [hrest.frames, hfs]
    simp

/-- An `end` in skipped code with constructs opened there takes one off their count; any other
pops the innermost frame. -/
theorem endFrame_nesting (h : endFrame.run s = .ok ((), s')) :
    (0 < s.deadDepth ∧ s' = { s with deadDepth := s.deadDepth - 1 }) ∨
      (s.deadDepth = 0 ∧ s'.frames.size + 1 = s.frames.size ∧ s'.deadDepth = 0) := by
  unfold endFrame at h
  simp only [StateT.run_bind, get_run, ok_bind] at h
  split at h
  · rename_i hdead
    simp only [StateT.run_bind, set_run, ok_bind, pure_run] at h
    cases h
    exact .inl ⟨hdead, rfl⟩
  rename_i hlive
  cases hf : s.frames.back? with
  | none =>
    simp only [hf] at h
    cases h
  | some f =>
    simp only [hf] at h
    rw [StateT.run_bind, modify_run, ok_bind] at h
    -- the innermost frame popped, the rest keeps the frames
    have hrest := (by
      refine .ite (.ite ?_ (.bind (.modify fun _ => ⟨rfl, rfl⟩) fun _ => .pure _))
        (.ite (.bind (peek_keepsNesting _) fun _ => .bind (terminate_keepsNesting _) fun _ =>
          .bind (.modify fun _ => ⟨rfl, rfl⟩) fun _ => ?_) (.bind (.modify fun _ => ⟨rfl, rfl⟩) fun _ => ?_))
      · exact .bind (peek_keepsNesting _) fun _ => .bind (terminate_keepsNesting _) fun _ =>
          .bind (.modify fun _ => ⟨rfl, rfl⟩) fun _ => .pure _
      all_goals
        split
        · exact .bind sealBlock_keepsNesting fun _ => .bind sealBlock_keepsNesting fun _ =>
            switchTo_keepsNesting _ _
        · exact .bind (.modify fun _ => ⟨rfl, rfl⟩) fun _ => .bind (terminate_keepsNesting _) fun _ =>
            .bind sealBlock_keepsNesting fun _ => switchTo_keepsNesting _ _
        · exact .bind sealBlock_keepsNesting fun _ => switchTo_keepsNesting _ _ : KeepsNesting _) _ _ _ h
    obtain ⟨fs, hfs⟩ := Array.back?_eq_some_iff.mp hf
    refine .inr ⟨by omega, ?_, by rw [hrest.deadDepth]; dsimp only; omega⟩
    rw [hrest.frames, hfs]
    simp

/-- One instruction, from a state where constructs counted in skipped code are skipped: the
frames, the count and the `end` make what they made before with the opening; and the count stays
positive only in skipped code. -/
theorem instr_nesting {ins : Instr} (hdead : 0 < s.deadDepth → s.unreachable = true)
    (h : (Lower.instr ins).run s = .ok ((), s')) :
    s'.frames.size + s'.deadDepth + (if ins.ends then 1 else 0) =
        s.frames.size + s.deadDepth + (if ins.opens then 1 else 0) ∧
      (0 < s'.deadDepth → s'.unreachable = true) := by
  unfold Lower.instr at h
  split at h
  case h_4 hop =>
    -- else
    have hends : ins.ends = false := by simp [Instr.ends, hop]
    have hopens : ins.opens = false := by simp [Instr.opens, hop]
    simp only [hends, hopens, Bool.false_eq_true, ↓reduceIte]
    rcases elseBranch_nesting h with ⟨hdead', -, rfl⟩ | ⟨hlive, hsize, hdepth⟩
    · exact ⟨rfl, hdead⟩
    · have hzero : s.deadDepth = 0 := by
        by_contra hpos
        exact hlive ⟨hdead (by omega), by omega⟩
      exact ⟨by simp [hsize, hdepth], fun hpos => by omega⟩
  case h_5 hop =>
    -- end
    have hends : ins.ends = true := by simp [Instr.ends, hop]
    have hopens : ins.opens = false := by simp [Instr.opens, hop]
    simp only [hends, hopens, Bool.false_eq_true, ↓reduceIte]
    rcases endFrame_nesting h with ⟨hpos, rfl⟩ | ⟨hzero, hsize, hdepth⟩
    · exact ⟨by dsimp only; omega, fun _ => hdead hpos⟩
    · exact ⟨by omega, fun hpos => by omega⟩
  case h_6 hop₂ hop₃ hop₄ hop₅ hop₁₁ =>
    -- every other instruction: nothing in skipped code, and the frames kept in live code
    have hends : ins.ends = false := by simpa [Instr.ends] using hop₁₁
    have hopens : ins.opens = false := by
      simp only [Instr.opens, Bool.or_eq_false_iff, beq_eq_false_iff_ne, ne_eq]
      exact ⟨⟨hop₂, hop₃⟩, hop₄⟩
    simp only [hends, hopens, Bool.false_eq_true, ↓reduceIte]
    simp only [StateT.run_bind, get_run, ok_bind] at h
    split at h
    · rw [pure_run] at h
      cases h
      exact ⟨rfl, hdead⟩
    rename_i hlive
    have hzero : s.deadDepth = 0 := by
      by_contra hpos
      exact hlive (hdead (by omega))
    have hrest := (by
      -- one case for each instruction the lowering knows, then the operators
      split
      · exact .pure _
      · exact terminate_keepsNesting _
      · exact br_keepsNesting _
      · exact brIf_keepsNesting _
      · exact brTable_keepsNesting _ _
      · -- return
        exact .bind .get fun _ => .bind (peek_keepsNesting _) fun _ => terminate_keepsNesting _
      · -- drop
        exact .map _ (pop_keepsNesting 1)
      · -- local.get
        exact .bind .get fun _ => .ite (.throw_bind _ _) (.bind lookupFuel_keepsNesting fun fuel =>
          .bind .get fun _ => .bind ((readLocal_addPredArgs_keepsNesting fuel).1 _ _) fun v =>
            push_keepsNesting v)
      all_goals first
        | exact operator_keepsNesting _ _
        | -- local.set and local.tee
          exact .bind .get fun _ => .ite (.throw_bind _ _) (.bind (pop_keepsNesting 1) fun _ =>
            .bind .get fun _ => .bind (defineLocal_keepsNesting _ _) fun _ =>
              .ite (push_keepsNesting _) (.pure _))
        | -- return_call and return_call_indirect
          exact .bind (operator_keepsNesting _ _) fun _ => .bind .get fun _ =>
            .bind (peek_keepsNesting _) fun _ => terminate_keepsNesting _ : KeepsNesting _) _ _ _ h
    exact ⟨by rw [hrest.frames, hrest.deadDepth], fun hpos => by rw [hrest.deadDepth] at hpos; omega⟩
  all_goals
    -- a block, a loop or an `if`: counted in skipped code, entered in live code
    rename_i hop
    have hends : ins.ends = false := by simp [Instr.ends, hop]
    have hopens : ins.opens = true := by simp [Instr.opens, hop]
    simp only [hends, hopens, Bool.false_eq_true, ↓reduceIte]
    simp only [StateT.run_bind, get_run, ok_bind] at h
    split at h
    · rename_i hskipped
      rw [set_run] at h
      cases h
      exact ⟨by dsimp only; omega, fun _ => hskipped⟩
    rename_i hlive
    have hzero : s.deadDepth = 0 := by
      by_contra hpos
      exact hlive (hdead (by omega))
    split at h
    · obtain ⟨fr, hframes, hdepth⟩ := enter_nesting h
      exact ⟨by rw [hframes, hdepth, Array.size_push]; omega, fun hpos => by omega⟩
    · cases h

/-- Setting up the entry block pushes the function's frame. -/
theorem start_nesting {locals : List LocalGroup} (h : (start locals).run s = .ok ((), s')) :
    ∃ fr, s'.frames = s.frames.push fr ∧ s'.deadDepth = s.deadDepth := by
  unfold start at h
  obtain ⟨entry, _, hs, h⟩ := newBlock_keepsNesting.run_bind (.refl s) h
  obtain ⟨_, _, hs, h⟩ := (KeepsNesting.modify fun _ => by exact ⟨rfl, rfl⟩).run_bind hs h
  obtain ⟨_, _, hs, h⟩ := sealBlock_keepsNesting.run_bind hs h
  obtain ⟨_, _, hs, h⟩ := KeepsNesting.get.run_bind hs h
  -- the parameters, then the declared locals, each defined in the entry block
  obtain ⟨_, s₄, hs, h⟩ := (KeepsNesting.forIn (fun ⟨t, _⟩ _ =>
    .bind (addParam_keepsNesting t) fun _ => .bind (defineLocal_keepsNesting _ _) fun _ =>
      .bind (.modify fun _ => ⟨rfl, rfl⟩) fun _ => .pure _) _ _).run_bind hs h
  rw [StateT.run_bind] at h
  obtain ⟨⟨_, s₅⟩, h₅, h⟩ := bind_eq_ok h
  have hs₅ : SameNesting s₄ s₅ := by
    refine KeepsNesting.forIn (fun g _ => ?_) _ _ _ _ _ h₅
    refine .bind .get fun _ => ?_
    dsimp only
    refine .ite (.throw_bind _ _) ?_
    split
    · refine .bind (.forIn_range (fun _ _ => ?_) _ _) fun _ => .pure _
      exact .bind .get fun _ => .bind (.modify fun _ => ⟨rfl, rfl⟩) fun _ =>
        .bind (emit_keepsNesting _ _ _) fun _ => .bind (defineLocal_keepsNesting _ _) fun _ => .pure _
    · exact .throw _
  obtain ⟨_, _, hs, h⟩ := KeepsNesting.get.run_bind (hs.trans hs₅) h
  rw [modify_run] at h
  cases h
  exact ⟨_, by rw [hs.frames], hs.deadDepth⟩

end Changes

/-! ## Nesting along a lowering -/

theorem instr_of_else {ins : Instr} (hop : ins.op = 0x05) : Lower.instr ins = elseBranch := by
  simp only [Lower.instr, hop]

theorem instr_of_end {ins : Instr} (hop : ins.op = 0x0b) : Lower.instr ins = endFrame := by
  simp only [Lower.instr, hop]

namespace Lowers

variable {m : Module} {sig : FuncType} {locals : List LocalGroup} {pre : List Instr} {s : Lowering}

/-- The invariant of nesting, by induction on the lowering: the entry frame, then one
instruction at a time. -/
theorem nesting_invariant (h : Lowers m sig locals pre s) :
    s.frames.size + s.deadDepth + pre.countP Instr.ends = 1 + pre.countP Instr.opens ∧
      (0 < s.deadDepth → s.unreachable = true) := by
  induction h with
  | start h =>
    obtain ⟨fr, hframes, hdepth⟩ := start_nesting h
    simp [hframes, hdepth]
  | step _ _ hstep ih =>
    obtain ⟨heq, hdead⟩ := instr_nesting ih.2 hstep
    refine ⟨?_, hdead⟩
    rw [List.countP_append, List.countP_append, List.countP_singleton, List.countP_singleton]
    omega

/-- Lowering follows the nesting of the instructions: after every instruction lowered, the frames,
the constructs counted in skipped code and the `end`s seen make one plus the constructs opened; a
positive count means the code is skipped; and an `else` or `end` lowered while the count is
positive leaves the frames, the operand stack and the current block as they were. -/
theorem frames_track_nesting (h : Lowers m sig locals pre s) :
    s.frames.size + s.deadDepth + pre.countP Instr.ends = 1 + pre.countP Instr.opens ∧
      (0 < s.deadDepth → s.unreachable = true) ∧
      ∀ ins s', (ins.op = 0x05 ∨ ins.op = 0x0b) → 0 < s.deadDepth →
        (Lower.instr ins).run s = .ok ((), s') →
        s'.frames = s.frames ∧ s'.stack = s.stack ∧ s'.cur = s.cur := by
  obtain ⟨hcount, hdead⟩ := h.nesting_invariant
  refine ⟨hcount, hdead, fun ins s' hop hpos hstep => ?_⟩
  rcases hop with hop | hop
  · -- an `else` in skipped code returns at once
    rw [instr_of_else hop] at hstep
    rcases elseBranch_nesting hstep with ⟨-, -, rfl⟩ | ⟨hlive, -⟩
    · exact ⟨rfl, rfl, rfl⟩
    · exact absurd ⟨hdead hpos, hpos⟩ hlive
  · -- an `end` there only lowers the count
    rw [instr_of_end hop] at hstep
    rcases endFrame_nesting hstep with ⟨-, rfl⟩ | ⟨hzero, -⟩
    · exact ⟨rfl, rfl, rfl⟩
    · omega

end Lowers

/-- A body with a block in dead code: `unreachable`, `block`, `end`, and the function's `end`. -/
def deadBlockCode : List Instr :=
  [⟨0x00, none, 0⟩, ⟨0x02, some (.block (-64)), 1⟩, ⟨0x0b, none, 3⟩, ⟨0x0b, none, 4⟩]

theorem deadBlockCode_lowers :
    ∃ s, Lowers {} ⟨[], []⟩ [] deadBlockCode s ∧
      (s.frames.size + s.deadDepth + deadBlockCode.countP Instr.ends =
          1 + deadBlockCode.countP Instr.opens ∧
        (0 < s.deadDepth → s.unreachable = true) ∧
        ∀ ins s', (ins.op = 0x05 ∨ ins.op = 0x0b) → 0 < s.deadDepth →
          (Lower.instr ins).run s = .ok ((), s') →
          s'.frames = s.frames ∧ s'.stack = s.stack ∧ s'.cur = s.cur) := by
  have hbody : (Body.ofCode {} ⟨[], []⟩ [] deadBlockCode).toOption.isSome = true := by cbv
  cases hof : Body.ofCode {} ⟨[], []⟩ [] deadBlockCode with
  | error e =>
    rw [hof] at hbody
    cases hbody
  | ok body =>
    unfold Body.ofCode at hof
    obtain ⟨⟨⟨⟩, s⟩, hrun, -⟩ := bind_eq_ok hof
    obtain ⟨hl, -⟩ := Lower.run_lowers hrun
    exact ⟨s, hl, Lowers.frames_track_nesting hl⟩

end WasmImage.Ssa
