import WasmImage.Proofs.LowerBody
import WasmImage.Proofs.LowerBlocks

/-!
# The invariant of lowering in every run

Between instructions, every lowering is *formed* (`Lowering.Formed`): the body built so far is
`Built`; the current block and the blocks the frames name exist; while code is live the current
block has no terminator and no frame still has to end it; the blocks frames still have to end
have no terminator and are distinct; and a block not sealed is one whose edges a frame still
collects (`Frame.joins`). So a block is ended only while it has no terminator, and when the
function's frame is closed every block is sealed.

This module gives the steps that end blocks and find branch targets, and the instructions that
stay within a frame.
-/

namespace WasmImage.Ssa

open Wasm Lower

/-- The blocks of a frame whose edges are not all known while it is open: the block it continues
in, and the header of a loop. -/
def Frame.joins (f : Frame) : List Nat :=
  match f.kind with
  | .function => []
  | .loop => [f.header, f.following]
  | _ => [f.following]

/-- The blocks whose edges the frames still collect. -/
def joinsOf (fs : Array Frame) : List Nat := fs.toList.flatMap Frame.joins

@[simp] theorem joinsOf_push (fs : Array Frame) (f : Frame) :
    joinsOf (fs.push f) = joinsOf fs ++ f.joins := by
  simp [joinsOf]

namespace Lower

variable {s s' : Lowering}

/-- Finding an operator's operand count and results only reads the lowering. -/
theorem effect_state {op : UInt8} {imm : Option Imm} {r : Nat × List ValType}
    (h : (effect op imm).run s = .ok (r, s')) : s' = s := by
  unfold effect at h
  -- every branch returns or throws, some after reading the module or the stack
  repeat' split at h
  all_goals try simp only [StateT.run_bind, get_run, ok_bind] at h
  all_goals try (repeat' split at h)
  all_goals (cases h; try rfl)

/-- Pushing values one by one appends them to the operand stack; what is left past them in the
backing array is below every bound that the spare entries before and the values pushed are. -/
theorem forIn_push_run : ∀ (vs : List Nat) (s : Lowering), ∃ sp,
    (forIn vs PUnit.unit fun v _ => do
      push v
      pure (ForInStep.yield PUnit.unit) : LowerM PUnit).run s =
      .ok (PUnit.unit, { s with stack := s.stack ++ vs.toArray, spare := sp }) ∧
    ∀ N, (∀ v ∈ s.spare, v < N) → (∀ v ∈ vs, v < N) → ∀ v ∈ sp, v < N
  | [], s => ⟨s.spare, by simp only [List.forIn_nil, Array.append_empty]; rfl, fun _ hs _ => hs⟩
  | v :: vs, s => by
    obtain ⟨sp, hrun, hsp⟩ :=
      forIn_push_run vs { s with stack := s.stack.push v, spare := appendSpare s.stack.size s.spare #[v] }
    refine ⟨sp, ?_, fun N hs hvs => hsp N (appendSpare_below hs fun w hw => ?_) fun w hw =>
      hvs w (List.mem_cons_of_mem _ hw)⟩
    · rw [List.forIn_cons]
      simp only [StateT.run_bind, push_run, ok_bind, pure_run]
      rw [hrun]
      simp
    · rw [Array.mem_singleton] at hw
      exact hw ▸ hvs v List.mem_cons_self

end Lower

namespace Lowering

variable {s s' : Lowering} {ok : Operator → Prop}

/-- The invariant of lowering between instructions, in every run. -/
structure Formed (ok : Operator → Prop) (s : Lowering) : Prop where
  built : s.Built ok
  cur : s.cur < s.blocks.size
  frames : ∀ f ∈ s.frames, f.header < s.blocks.size ∧ f.following < s.blocks.size
  function : ∀ f ∈ s.frames, f.kind = .function → f.results = s.results
  reach : s.unreachable = false → termAt s.blocks s.cur = none ∧ s.cur ∉ pendingOf s.frames
  pending : ∀ j ∈ pendingOf s.frames, termAt s.blocks j = none
  distinct : (pendingOf s.frames).Nodup
  joins : ∀ j < s.blocks.size, sealedAt s.states j = false → j ∈ joinsOf s.frames

namespace Advances

/-- Only the blocks that existed before matter. -/
theorem of_old {E E' : List Nat} (h : Advances E s s') (hE : ∀ j ∈ E, j < s.blocks.size → j ∈ E') :
    Advances E' s s' :=
  { h with unended := fun j hj hnone hE' => h.unended j hj hnone fun hm => hE' (hE j hm hj) }

theorem newBlock (s : Lowering) :
    Advances [] s { s with blocks := s.blocks.push {}, states := s.states.push {} } :=
  of_same (by simp) termAt_push_empty sealedAt_push_empty rfl

/-- Only the blocks and their states matter. -/
theorem congr_left {E : List Nat} (h : Advances E s s') (s₀ : Lowering) (hblocks : s₀.blocks = s.blocks)
    (hstates : s₀.states = s.states) (hresults : s₀.results = s.results) : Advances E s₀ s' := by
  obtain ⟨hsize, hunended, hkeeps, hsealed, hres⟩ := h
  exact ⟨hblocks ▸ hsize, hblocks ▸ hunended, hblocks ▸ hkeeps, hstates ▸ hsealed, hresults ▸ hres⟩

theorem congr_right {E : List Nat} {s₂ : Lowering} (h : Advances E s s') (hblocks : s₂.blocks = s'.blocks)
    (hstates : s₂.states = s'.states) (hresults : s₂.results = s'.results) : Advances E s s₂ := by
  obtain ⟨hsize, hunended, hkeeps, hsealed, hres⟩ := h
  exact ⟨hblocks ▸ hsize, hblocks ▸ hunended, hblocks ▸ hkeeps, hstates ▸ hsealed, hresults ▸ hres⟩

/-- Giving block `j`, with no terminator yet, a terminator. -/
theorem setTerm {j : Nat} (hj : j < s.blocks.size) (hopen : termAt s.blocks j = none) (t : Terminator)
    (hblocks : s'.blocks = s.blocks.modify j fun b => { b with term := some t })
    (hsealed : sealedAt s'.states = sealedAt s.states) (hresults : s'.results = s.results) :
    Advances [j] s s' := by
  refine ⟨by simp [hblocks], fun i _ hnone hi => ?_, hblocks ▸ .setTerm hj hopen t,
    fun i hi => by rw [hsealed]; exact hi, hresults⟩
  rw [hblocks, termAt_setTerm hj, if_neg fun h => hi (List.mem_singleton.mpr h.symm)]
  exact hnone

end Advances

namespace Built

/-- The block that returns, once made and ended with a return. -/
theorem setRet (hb : s.Built ok) {r : Nat} (hr : r < s.blocks.size) {vals : List Nat}
    (hvals : termAt s.blocks r = some (.ret vals)) : ({ s with retBlock := some r } : Lowering).Built ok := by
  have hl : s.Linked := hb.linked
  have hbd : s.Bounded := hb.bounded
  refine ⟨⟨hl.sizes, hl.targets, hl.preds, hl.nodup, fun r' hr' => ?_⟩,
    ⟨hbd.stack, hbd.spare, hbd.elseArgs, hbd.blocks, hbd.states, hbd.operands⟩, hb.made.congr rfl rfl rfl rfl rfl,
    hb.rets, hb.ops⟩
  cases hr'
  exact ⟨hr, vals, hvals⟩

/-- Ending the current block, with no terminator yet, by a terminator whose targets exist and
whose values are made, that returns one value per result. -/
theorem terminate (hb : s.Built ok) (hcur : s.cur < s.blocks.size) (hopen : termAt s.blocks s.cur = none)
    {t : Terminator} (htargets : ∀ e ∈ t.successors, e.block < s.blocks.size)
    (hbelow : t.Below s.values.size) (hret : ∀ vals, t = .ret vals → vals.length = s.results.length)
    (h : (Lower.terminate t).run s = .ok ((), s')) :
    s'.Built ok ∧ Advances [s.cur] s s' ∧
      s' = { s with
        blocks := s.blocks.modify s.cur fun b => { b with term := some t }
        states := linkEdges s.cur t.successors.zipIdx s.states
        unreachable := true } := by
  rw [terminate_run] at h
  obtain ⟨-, hs'⟩ := Prod.mk.inj (Except.ok.inj h)
  subst hs'
  exact ⟨(hb.link hcur hopen htargets hbelow hret).of_control rfl rfl rfl rfl rfl hb.bounded.stack hb.bounded.spare
    hb.bounded.elseArgs, Advances.setTerm hcur hopen t rfl (sealedAt_linkEdges ..) rfl, rfl⟩

end Built

namespace AddsParams

variable {blk k : Nat} {s₀ : Lowering}

/-- One more parameter added to block `blk`. -/
theorem next (h : AddsParams blk k s₀ s) (hblk : blk < s₀.blocks.size) {t : ValType} {v : Nat}
    (hrun : (Lower.addParam blk t).run s = .ok (v, s')) : AddsParams blk (k + 1) s₀ s' ∧ v < s'.values.size := by
  obtain ⟨bs, vs, rfl⟩ := h.rest
  have hblk' : blk < bs.size := h.size ▸ hblk
  rw [addParam_run] at hrun
  cases hrun
  refine ⟨⟨⟨_, _, rfl⟩, ?_, by simpa using h.size, ?_, by simpa using h.term⟩, by simp⟩
  · exact (h.moves.trans (Moves.addParam _ blk _)).mono (fun _ _ => Iff.rfl) (fun _ _ => id)
      (by simp) (by simp)
  · simp only [paramCount_pushParam hblk']
    rw [h.params]
    rfl

theorem built (h : AddsParams blk k s₀ s) (hb : s.Built ok) (hblk : blk < s₀.blocks.size) {t : ValType}
    {v : Nat} (hrun : (Lower.addParam blk t).run s = .ok (v, s')) : s'.Built ok := by
  rw [addParam_run] at hrun
  cases hrun
  exact hb.addParam (by rw [h.size]; exact hblk) t

/-- Parameters added to block `blk`, one per type. -/
theorem mapM_built (hblk : blk < s₀.blocks.size) :
    ∀ (ts : List ValType) (k : Nat) (s : Lowering) (vals : List Nat) (s' : Lowering),
      s.Built ok → AddsParams blk k s₀ s → (ts.mapM (Lower.addParam blk)).run s = .ok (vals, s') →
      s'.Built ok ∧ AddsParams blk (k + ts.length) s₀ s' ∧ vals.length = ts.length ∧
        s.values.size ≤ s'.values.size ∧ ∀ v ∈ vals, v < s'.values.size
  | [], k, s, vals, s', hb, h, hrun => by
    simp only [List.mapM_nil, pure_run] at hrun
    cases hrun
    exact ⟨hb, h, rfl, Nat.le_refl _, by simp⟩
  | t :: ts, k, s, vals, s', hb, h, hrun => by
    simp only [List.mapM_cons, StateT.run_bind] at hrun
    obtain ⟨⟨v, s₁⟩, h₁, hrun⟩ := bind_eq_ok hrun
    obtain ⟨⟨vs, s₂⟩, h₂, hrun⟩ := bind_eq_ok hrun
    rw [pure_run] at hrun
    cases hrun
    obtain ⟨hadd₁, hv⟩ := h.next hblk h₁
    obtain ⟨hb₂, hadd₂, hlen, hle, hvs⟩ := mapM_built hblk ts (k + 1) s₁ vs s₂ (h.built hb hblk h₁) hadd₁ h₂
    have hle₁ : s.values.size ≤ s₁.values.size := by
      rw [addParam_run] at h₁
      cases h₁
      simp
    refine ⟨hb₂, by simpa [Nat.add_assoc, Nat.add_comm 1] using hadd₂, by simp [hlen],
      Nat.le_trans hle₁ hle, ?_⟩
    intro w hw
    rcases List.mem_cons.mp hw with rfl | hw
    · exact Nat.lt_of_lt_of_le hv hle
    · exact hvs w hw

/-- Parameters added to block `blk`, one per type, in a loop. -/
theorem forIn_built {ts : List ValType} (hb : s₀.Built ok) (hblk : blk < s₀.blocks.size)
    (h : (forIn ts PUnit.unit fun t _ => do
        let _ ← Lower.addParam blk t
        pure (ForInStep.yield PUnit.unit) : LowerM PUnit).run s₀ = .ok (PUnit.unit, s)) :
    s.Built ok ∧ AddsParams blk ts.length s₀ s := by
  refine forIn_run_invariant (fun pre _ t => t.Built ok ∧ AddsParams blk pre.length s₀ t) ?_
    ⟨hb, AddsParams.refl blk s₀⟩ h
  intro pre t rest _ t₀ r t₁ _ ⟨hb₀, hadd⟩ hstep
  rw [StateT.run_bind] at hstep
  obtain ⟨⟨v, t₂⟩, h₂, hstep⟩ := bind_eq_ok hstep
  rw [pure_run] at hstep
  cases hstep
  exact ⟨_, rfl, hadd.built hb₀ hblk h₂, by simpa using (hadd.next hblk h₂).1⟩

end AddsParams

namespace Formed

theorem lt_of_pending (hf : s.Formed ok) {j : Nat} (hj : j ∈ pendingOf s.frames) : j < s.blocks.size := by
  obtain ⟨f, hfr, hj⟩ := mem_pendingOf.mp hj
  rcases Frame.mem_pending.mp hj with ⟨-, rfl⟩ | ⟨-, rfl⟩
  · exact (hf.frames f hfr).2
  · exact (hf.frames f hfr).1

/-- Steps that end only blocks no frame has to end, leave live code in a block with no
terminator that no frame has to end, and leave frames whose blocks exist: each block they have to
end is one the frames had to end before, or new and not ended, and a block not sealed is one
whose edges they collect. -/
theorem advance {E : List Nat} (hf : s.Formed ok) (hb : s'.Built ok) (ha : Advances E s s')
    (hcur : s'.cur < s'.blocks.size)
    (hframes : ∀ f ∈ s'.frames, f.header < s'.blocks.size ∧ f.following < s'.blocks.size)
    (hfunction : ∀ f ∈ s'.frames, f.kind = .function → f.results = s'.results)
    (hreach : s'.unreachable = false → termAt s'.blocks s'.cur = none ∧ s'.cur ∉ pendingOf s'.frames)
    (hpending : ∀ j ∈ pendingOf s'.frames,
      (j ∈ pendingOf s.frames ∧ j ∉ E) ∨ (s.blocks.size ≤ j ∧ termAt s'.blocks j = none))
    (hdistinct : (pendingOf s'.frames).Nodup)
    (hjoins : ∀ j < s'.blocks.size, j ∈ joinsOf s.frames ∨ s.blocks.size ≤ j →
      sealedAt s'.states j = false → j ∈ joinsOf s'.frames) :
    s'.Formed ok := by
  refine ⟨hb, hcur, hframes, hfunction, hreach, fun j hj => ?_, hdistinct, fun j hj hunsealed => ?_⟩
  · rcases hpending j hj with ⟨hold, hE⟩ | ⟨-, hnone⟩
    · exact ha.unended j (hf.lt_of_pending hold) (hf.pending j hold) hE
    · exact hnone
  · refine hjoins j hj ?_ hunsealed
    by_cases hlt : j < s.blocks.size
    · refine .inl (hf.joins j hlt ?_)
      cases hs : sealedAt s.states j
      · rfl
      · rw [ha.sealed j hs] at hunsealed
        cases hunsealed
    · exact .inr (Nat.le_of_not_lt hlt)

/-- Steps that keep the frames, end only blocks no frame has to end, seal every block they make,
and leave live code in a block with no terminator that no frame has to end. -/
theorem move {E : List Nat} (hf : s.Formed ok) (hb : s'.Built ok) (ha : Advances E s s')
    (hframes : s'.frames = s.frames) (hresults : s'.results = s.results) (hcur : s'.cur < s'.blocks.size)
    (hreach : s'.unreachable = false → termAt s'.blocks s'.cur = none ∧ s'.cur ∉ pendingOf s.frames)
    (hE : ∀ j ∈ E, j ∉ pendingOf s.frames)
    (hnew : ∀ j, s.blocks.size ≤ j → j < s'.blocks.size → sealedAt s'.states j = true) :
    s'.Formed ok := by
  refine hf.advance hb ha hcur (fun f hfr => ?_) (fun f hfr => hresults ▸ hf.function f (hframes ▸ hfr))
    (fun hl => hframes ▸ hreach hl) (fun j hj => .inl ⟨hframes ▸ hj, fun hm => hE j hm (hframes ▸ hj)⟩)
    (hframes ▸ hf.distinct) (fun j hj hold hunsealed => ?_)
  · obtain ⟨h₁, h₂⟩ := hf.frames f (hframes ▸ hfr)
    exact ⟨Nat.lt_of_lt_of_le h₁ ha.size, Nat.lt_of_lt_of_le h₂ ha.size⟩
  · rw [hframes]
    rcases hold with hold | hle
    · exact hold
    · rw [hnew j hle hj] at hunsealed
      cases hunsealed

/-- Steps that keep the frames and the current block, end only blocks no frame has to end and,
if code stays live, not the current block, and seal every block they make. -/
theorem stay {E : List Nat} (hf : s.Formed ok) (hb : s'.Built ok) (ha : Advances E s s')
    (hframes : s'.frames = s.frames) (hcur : s'.cur = s.cur) (hresults : s'.results = s.results)
    (hlive : s'.unreachable = false → s.unreachable = false ∧ s.cur ∉ E)
    (hE : ∀ j ∈ E, j ∉ pendingOf s.frames)
    (hnew : ∀ j, s.blocks.size ≤ j → j < s'.blocks.size → sealedAt s'.states j = true) :
    s'.Formed ok := by
  refine hf.move hb ha hframes hresults (hcur ▸ Nat.lt_of_lt_of_le hf.cur ha.size) (fun hl => ?_) hE hnew
  obtain ⟨hl₀, hcE⟩ := hlive hl
  obtain ⟨hnone, hfree⟩ := hf.reach hl₀
  rw [hcur]
  exact ⟨ha.unended _ hf.cur hnone hcE, hfree⟩

/-- Steps that change only the values and the blocks' local definitions, parameters and
arguments, and seal blocks. -/
theorem grows {S : List Nat} (hf : s.Formed ok) (hb : s'.Built ok) (hg : Grows S s s')
    (hS : ∀ j ∈ S, sealedAt s'.states j = true) : s'.Formed ok := by
  have hsame := SameControl.of_grows hg
  refine hf.stay hb (Advances.of_grows hg hS) hsame.frames hsame.cur hsame.results
    (fun hl => ⟨hsame.unreachable ▸ hl, List.not_mem_nil⟩) (fun j hj => absurd hj List.not_mem_nil) ?_
  intro j hj hj'
  rw [hg.blocks] at hj'
  omega

/-- Changing only the operand stack and its backing array, to values made. -/
theorem setOperands (hf : s.Formed ok) (st sp : Array Nat) (hst : ∀ v ∈ st, v < s.values.size)
    (hsp : ∀ v ∈ sp, v < s.values.size) : ({ s with stack := st, spare := sp } : Lowering).Formed ok :=
  ⟨hf.built.of_control rfl rfl rfl rfl rfl hst hsp hf.built.bounded.elseArgs, hf.cur, hf.frames,
    hf.function, hf.reach, hf.pending, hf.distinct, hf.joins⟩

/-- Pushing a value made. -/
theorem pushOperand (hf : s.Formed ok) {v : Nat} (hv : v < s.values.size) :
    ({ s with stack := s.stack.push v, spare := appendSpare s.stack.size s.spare #[v] } : Lowering).Formed ok := by
  have hb := hf.built.bounded
  refine hf.setOperands _ _ (fun w hw => ?_) (appendSpare_push_below hb.spare hv)
  rcases Array.mem_push.mp hw with hw | rfl
  · exact hb.stack w hw
  · exact hv

/-- Popping operands keeps them in the backing array. -/
theorem popOperands (hf : s.Formed ok) (k : Nat) :
    ({ s with
      stack := s.stack.extract 0 k
      spare := s.stack.extract k s.stack.size ++ s.spare } : Lowering).Formed ok := by
  have hb := hf.built.bounded
  exact hf.setOperands _ _ (fun v hv => hb.stack v (mem_of_mem_extract hv))
    (popped_below hb.stack hb.spare)

/-- The values on top of the stack are made. -/
theorem top_below (hf : s.Formed ok) {n v : Nat}
    (hv : v ∈ (s.stack.extract (s.stack.size - n) s.stack.size).toList) : v < s.values.size :=
  hf.built.bounded.stack v (mem_of_mem_top hv)

/-- Ending the current block of live code with a terminator whose targets exist and whose values
are made, that returns one value per result: the code after it is dead. -/
theorem terminate (hf : s.Formed ok) (hlive : s.unreachable = false) {t : Terminator}
    (htargets : ∀ e ∈ t.successors, e.block < s.blocks.size) (hbelow : t.Below s.values.size)
    (hret : ∀ vals, t = .ret vals → vals.length = s.results.length)
    (h : (terminate t).run s = .ok ((), s')) :
    s'.Formed ok ∧ Advances [s.cur] s s' ∧
      s' = { s with
        blocks := s.blocks.modify s.cur fun b => { b with term := some t }
        states := linkEdges s.cur t.successors.zipIdx s.states
        unreachable := true } := by
  obtain ⟨hopen, hfree⟩ := hf.reach hlive
  obtain ⟨hb, ha, rfl⟩ := hf.built.terminate hf.cur hopen htargets hbelow hret h
  refine ⟨hf.stay hb ha rfl rfl rfl (fun h => by cases h) (fun j hj => ?_)
    (fun j hj hj' => by simp at hj'; omega), ha, rfl⟩
  rw [List.mem_singleton] at hj
  exact hj ▸ hfree

/-- Asking for the block that returns keeps the invariant and the control state and ends no
block made before: the block is made the first time, with one parameter per result, sealed and
ended by returning them. -/
theorem returnBlock (hf : s.Formed ok) {b : Nat} (h : returnBlock.run s = .ok (b, s')) :
    s'.Formed ok ∧ Advances [] s s' ∧ SameControl s s' ∧ b < s'.blocks.size := by
  simp only [Lower.returnBlock, StateT.run_bind, get_run, ok_bind] at h
  split at h
  · -- made before
    rename_i r hr
    rw [pure_run] at h
    cases h
    exact ⟨hf, Advances.refl s, SameControl.refl s, (hf.built.linked.ret b hr).1⟩
  · simp only [StateT.run_bind, newBlock_run, get_run, ok_bind] at h
    obtain ⟨⟨vals, s₂⟩, h₂, h⟩ := bind_eq_ok h
    obtain ⟨⟨_, s₃⟩, h₃, h⟩ := bind_eq_ok h
    simp only [modifyBlock_run, modify_run, ok_bind, pure_run] at h
    cases h
    -- the new block, with one parameter per result
    obtain ⟨hb₂, hadd, hlen, -, hvals⟩ :=
      AddsParams.mapM_built (by simp) s.results 0 _ vals s₂ hf.built.newBlock (AddsParams.refl _ _) h₂
    obtain ⟨bs₂, vs₂, rfl⟩ := hadd.rest
    have hsize₂ : bs₂.size = s.blocks.size + 1 := by simpa using hadd.size
    obtain ⟨hb₃, hg₃, hsealed₃⟩ := hb₂.sealBlock (by simp [hsize₂]) h₃
    obtain ⟨bs₃, vs₃, sts₃, rfl⟩ := hg₃.rest
    have hsize₃ : bs₃.size = s.blocks.size + 1 := hg₃.blocks.trans hsize₂
    have hblk₃ : s.blocks.size < bs₃.size := by omega
    have hopen : termAt bs₃ s.blocks.size = none := by
      have hshape := hg₃.shape s.blocks.size
      rw [hadd.term, termAt_push_empty, termAt_of_le (Nat.le_refl _)] at hshape
      exact Option.map_eq_none_iff.mp hshape
    -- ended by returning its parameters
    have hbelow : (Terminator.ret vals).Below vs₃.size :=
      ⟨fun _ hv v hmem => by cases hv; exact Nat.lt_of_lt_of_le (hvals v hmem) hg₃.values,
        by simp [Terminator.successors]⟩
    have hb₄ := hb₃.link hblk₃ hopen (by simp [Terminator.successors]) hbelow
      fun _ hv => by cases hv; simpa using hlen
    have hterm : termAt (bs₃.modify s.blocks.size fun b => { b with term := some (.ret vals) })
        s.blocks.size = some (.ret vals) := by
      simp [termAt_setTerm hblk₃]
    have hb₅ := hb₄.setRet (by simpa using hblk₃) hterm
    -- no block made before is ended
    have ha : Advances [s.blocks.size] s { s with
        blocks := bs₃.modify s.blocks.size fun b => { b with term := some (.ret vals) }
        values := vs₃, states := sts₃, retBlock := some s.blocks.size } :=
      (((Advances.newBlock s).trans
        (Advances.of_same (Nat.le_of_eq hadd.size.symm) hadd.term (by rw [hadd.states.1])
          hadd.sameControl.results)).trans
        (Advances.of_grows hg₃ (by simpa using hsealed₃))).trans
        (Advances.setTerm hblk₃ hopen (.ret vals) rfl rfl rfl)
    refine ⟨hf.stay hb₅ (ha.of_old fun j hj hlt => ?_) rfl rfl rfl (fun hl => ⟨hl, List.not_mem_nil⟩)
      (fun j hj => absurd hj List.not_mem_nil) (fun j hj hj' => ?_), ha.of_old fun j hj hlt => ?_, ⟨rfl, rfl, rfl, rfl, rfl, rfl, rfl⟩,
      by simp [hsize₃]⟩
    · simp at hj
      omega
    · have hj₀ : j = s.blocks.size := by
        simp only [Array.size_modify, hsize₃] at hj'
        omega
      subst hj₀
      exact hsealed₃
    · simp at hj
      omega

/-- The block a branch to `label` goes to exists; finding it keeps the invariant and the control
state, and ends no block made before. -/
theorem target (hf : s.Formed ok) {label : UInt32} {blk n : Nat}
    (h : (target label).run s = .ok ((blk, n), s')) :
    s'.Formed ok ∧ Advances [] s s' ∧ SameControl s s' ∧ blk < s'.blocks.size := by
  simp only [Lower.target, StateT.run_bind, get_run, ok_bind] at h
  split at h
  · cases h
  · cases hfr : s.frames[s.frames.size - 1 - label.toNat]? with
    | none => simp only [hfr] at h; cases h
    | some f =>
      simp only [hfr] at h
      have hlt := hf.frames f (Array.mem_of_getElem? hfr)
      split at h
      · -- the function's frame: the block that returns
        rw [StateT.run_bind] at h
        obtain ⟨⟨b, s₁⟩, h₁, h⟩ := bind_eq_ok h
        rw [pure_run] at h
        cases h
        exact hf.returnBlock h₁
      · -- a loop: its header
        rw [pure_run] at h
        cases h
        exact ⟨hf, Advances.refl s, SameControl.refl s, hlt.1⟩
      · -- any other frame: the block it continues in
        rw [pure_run] at h
        cases h
        exact ⟨hf, Advances.refl s, SameControl.refl s, hlt.2⟩

/-- A branch ends the current block: a branch to the function's own label returns the values on
top of the stack, any other passes them to the block of its label. -/
theorem br (hf : s.Formed ok) (hlive : s.unreachable = false) {label : UInt32}
    (h : (br label).run s = .ok ((), s')) : s'.Formed ok ∧ Advances [s.cur] s s' := by
  simp only [Lower.br, StateT.run_bind, get_run, ok_bind] at h
  split at h
  · -- a return
    rw [StateT.run_bind] at h
    obtain ⟨⟨vals, s₁⟩, h₁, h⟩ := bind_eq_ok h
    obtain ⟨hn, rfl, rfl⟩ := peek_run s h₁
    obtain ⟨hf', ha, -⟩ := hf.terminate hlive (by simp [Terminator.successors])
      ⟨fun _ hv v hmem => by cases hv; exact hf.top_below hmem, by simp [Terminator.successors]⟩
      (fun _ hv => by cases hv; exact length_top hn) h
    exact ⟨hf', ha⟩
  · rw [StateT.run_bind] at h
    obtain ⟨⟨⟨blk, n⟩, s₁⟩, h₁, h⟩ := bind_eq_ok h
    obtain ⟨hf₁, ha₁, hsame, hblk⟩ := hf.target h₁
    rw [StateT.run_bind] at h
    obtain ⟨⟨args, s₂⟩, h₂, h⟩ := bind_eq_ok h
    obtain ⟨-, rfl, rfl⟩ := peek_run _ h₂
    obtain ⟨hf', ha, -⟩ := hf₁.terminate (hsame.unreachable.trans hlive)
      (by
        intro e he
        simp only [Terminator.successors, List.mem_singleton] at he
        exact he ▸ hblk)
      (by
        refine ⟨fun _ hv => (by cases hv), fun e he v hv => ?_⟩
        simp only [Terminator.successors, List.mem_singleton] at he
        subst he
        exact hf₁.top_below hv)
      (fun _ hv => by cases hv) h
    exact ⟨hf', hsame.cur ▸ ha₁.trans ha⟩

/-- A conditional branch ends the current block with an edge to the block of its label and one
to a new block, sealed at once, in which code goes on. -/
theorem brIf (hf : s.Formed ok) (hlive : s.unreachable = false) {label : UInt32}
    (h : (brIf label).run s = .ok ((), s')) : s'.Formed ok ∧ Advances [s.cur] s s' := by
  simp only [Lower.brIf, StateT.run_bind] at h
  obtain ⟨⟨cond, s₁⟩, h₁, h⟩ := bind_eq_ok h
  obtain ⟨-, -, rfl⟩ := pop_run s h₁
  have hf₁ := hf.popOperands (s.stack.size - 1)
  obtain ⟨⟨⟨blk, n⟩, s₂⟩, h₂, h⟩ := bind_eq_ok h
  obtain ⟨hf₂, ha₂, hsame₂, hblk⟩ := hf₁.target h₂
  have hlive₂ : s₂.unreachable = false := hsame₂.unreachable.trans hlive
  obtain ⟨⟨args, s₃⟩, h₃, h⟩ := bind_eq_ok h
  obtain ⟨-, rfl, hs₃⟩ := peek_run _ h₃
  subst s₃
  simp only [newBlock_run, ok_bind] at h
  obtain ⟨⟨_, s₄⟩, h₄, h⟩ := bind_eq_ok h
  obtain ⟨⟨_, s₅⟩, h₅, h⟩ := bind_eq_ok h
  rw [modify_run] at h
  cases h
  obtain ⟨hopen, hfree⟩ := hf₂.reach hlive₂
  have hcur₂ := hf₂.cur
  -- the current block goes to the label's block and to the new one
  obtain ⟨hb₄, ha₄, rfl⟩ := hf₂.built.newBlock.terminate (by simp; omega) (by simpa using hopen)
    (by
      intro e he
      simp only [Terminator.successors, List.mem_cons, List.not_mem_nil, or_false] at he
      rcases he with rfl | rfl
      · simp only [Array.size_push]
        omega
      · simp)
    (by
      refine ⟨fun _ hv => (by cases hv), fun e he v hv => ?_⟩
      simp only [Terminator.successors, List.mem_cons, List.not_mem_nil, or_false] at he
      rcases he with rfl | rfl
      · exact hf₂.top_below hv
      · simp at hv)
    (fun _ hv => by cases hv) h₄
  -- the new block is sealed at once, and code goes on there
  obtain ⟨hb₅, hg₅, hsealed₅⟩ := hb₄.sealBlock (by simp) h₅
  have hsame₅ := SameControl.of_grows hg₅
  have hsize₅ : s₅.blocks.size = s₂.blocks.size + 1 := by simp [hg₅.blocks]
  have hb₆ : Built ok { s₅ with cur := s₂.blocks.size, unreachable := false } :=
    hb₅.of_control rfl rfl rfl rfl rfl hb₅.bounded.stack hb₅.bounded.spare hb₅.bounded.elseArgs
  have ha : Advances [s₂.cur] s₂ { s₅ with cur := s₂.blocks.size, unreachable := false } :=
    (((Advances.newBlock s₂).trans ha₄).trans (Advances.of_grows hg₅ (by simpa using hsealed₅))).trans
      (Advances.of_same (Nat.le_refl _) rfl rfl rfl)
  have hnext : termAt s₅.blocks s₂.blocks.size = none := by
    have hshape := hg₅.shape s₂.blocks.size
    rw [termAt_setTerm (by simp; omega), if_neg (Nat.ne_of_lt hcur₂), termAt_push_empty,
      termAt_of_le (Nat.le_refl _)] at hshape
    exact Option.map_eq_none_iff.mp hshape
  have ha' := (ha₂.congr_left s rfl rfl rfl).trans ha
  rw [hsame₂.cur] at ha'
  refine ⟨hf₂.move hb₆ ha hsame₅.frames hsame₅.results (by simp [hsize₅])
    (fun _ => ⟨hnext, fun hp => absurd (hf₂.lt_of_pending hp) (Nat.lt_irrefl _)⟩)
    (fun j hj => by rw [List.mem_singleton] at hj; exact hj ▸ hfree) (fun j hj hj' => ?_),
    ha'⟩
  have hj₀ : j = s₂.blocks.size := by
    simp only [hsize₅] at hj'
    omega
  exact hj₀ ▸ hsealed₅

/-- A table branch ends the current block with an edge to the block of each label and of the
default, each carrying the values on top of the stack. -/
theorem brTable (hf : s.Formed ok) (hlive : s.unreachable = false) {labels : List UInt32}
    {default : UInt32} (h : (brTable labels default).run s = .ok ((), s')) :
    s'.Formed ok ∧ Advances [s.cur] s s' := by
  simp only [Lower.brTable, StateT.run_bind] at h
  obtain ⟨⟨index, s₁⟩, h₁, h⟩ := bind_eq_ok h
  obtain ⟨-, -, rfl⟩ := pop_run s h₁
  have hf₁ := hf.popOperands (s.stack.size - 1)
  split at h
  · obtain ⟨hf', ha⟩ := hf₁.br hlive h
    exact ⟨hf', ha.congr_left s rfl rfl rfl⟩
  · rw [StateT.run_bind] at h
    obtain ⟨⟨⟨blk, n⟩, s₂⟩, h₂, h⟩ := bind_eq_ok h
    obtain ⟨hf₂, ha₂, hsame₂, hblk⟩ := hf₁.target h₂
    rw [StateT.run_bind] at h
    obtain ⟨⟨args, s₃⟩, h₃, h⟩ := bind_eq_ok h
    obtain ⟨-, rfl, hs₃⟩ := peek_run _ h₃
    subst s₃
    rw [StateT.run_bind] at h
    obtain ⟨⟨targets, s₄⟩, h₄, h⟩ := bind_eq_ok h
    -- each label goes to a block that exists, with the values on top of the stack
    have key := forIn_run_invariant (fun _ acc t => t.Formed ok ∧ Advances [] s₂ t ∧ SameControl s₂ t ∧
        ∀ e ∈ acc, e.block < t.blocks.size ∧
          e.args = (s₂.stack.extract (s₂.stack.size - n) s₂.stack.size).toList)
      ?_ ⟨hf₂, Advances.refl s₂, SameControl.refl s₂, by simp⟩ h₄
    · obtain ⟨hf₄, ha₄, hsame₄, htargets⟩ := key
      have hlive₄ : s₄.unreachable = false := hsame₄.unreachable.trans (hsame₂.unreachable.trans hlive)
      obtain ⟨hf', ha, -⟩ := hf₄.terminate hlive₄
        (by
          intro e he
          simp only [Terminator.successors, List.mem_append, Array.mem_toList_iff,
            List.mem_singleton] at he
          rcases he with he | rfl
          · exact (htargets e he).1
          · exact Nat.lt_of_lt_of_le hblk ha₄.size)
        (by
          refine ⟨fun _ hv => (by cases hv), fun e he v hv => ?_⟩
          simp only [Terminator.successors, List.mem_append, Array.mem_toList_iff,
            List.mem_singleton] at he
          have hv' : v ∈ (s₂.stack.extract (s₂.stack.size - n) s₂.stack.size).toList := by
            rcases he with he | rfl
            · rwa [← (htargets e he).2]
            · exact hv
          exact hf₄.built.bounded.stack v (hsame₄.stack ▸ mem_of_mem_top hv'))
        (fun _ hv => by cases hv) h
      have ha' := (ha₂.congr_left s rfl rfl rfl).trans (ha₄.trans ha)
      rw [hsame₄.cur, hsame₂.cur] at ha'
      exact ⟨hf', ha'⟩
    · -- a label carrying as many values as the default
      rintro pre label rest acc t r t' hpre ⟨hft, hat, hsame, hacc⟩ hstep
      rw [StateT.run_bind] at hstep
      obtain ⟨⟨⟨b, m⟩, t₁⟩, ht₁, hstep⟩ := bind_eq_ok hstep
      obtain ⟨hft₁, hat₁, hsamet₁, hb⟩ := hft.target ht₁
      split at hstep
      · simp only [StateT.run_bind] at hstep
        cases hstep
      · rw [StateT.run_bind, dup_run, ok_bind, pure_run] at hstep
        cases hstep
        refine ⟨_, rfl, hft₁, hat.trans hat₁, hsame.trans hsamet₁, fun e he => ?_⟩
        rcases Array.mem_push.mp he with he | rfl
        · obtain ⟨hlt, hargs⟩ := hacc e he
          exact ⟨Nat.lt_of_lt_of_le hlt hat₁.size, hargs⟩
        · rename_i hm
          have hmn : m = n := by simpa using hm
          subst hmn
          exact ⟨hb, by rw [hsamet₁.stack, hsame.stack]⟩

/-- Reading a local in the current block of live code, which is not the block that returns. -/
theorem readLocal (hf : s.Formed ok) (hlive : s.unreachable = false) {fuel : Nat} {idx : UInt32} {v : Nat}
    (h : (readLocal fuel s.cur idx).run s = .ok (v, s')) :
    s'.Formed ok ∧ Advances [] s s' ∧ SameControl s s' ∧ v < s'.values.size := by
  obtain ⟨hopen, -⟩ := hf.reach hlive
  have hret : s.retBlock ≠ some s.cur := by
    intro hr
    obtain ⟨-, vals, hvals⟩ := hf.built.linked.ret s.cur hr
    rw [hopen] at hvals
    cases hvals
  obtain ⟨hb, hg, hv⟩ := hf.built.readLocal hf.cur hret h
  exact ⟨hf.grows hb hg (by simp), Advances.of_grows hg (by simp), SameControl.of_grows hg, hv⟩

/-- A parameter added to a block that exists. -/
theorem addParam (hf : s.Formed ok) {blk : Nat} (hblk : blk < s.blocks.size) {t : ValType} {v : Nat}
    (h : (Lower.addParam blk t).run s = .ok (v, s')) :
    s'.Formed ok ∧ Advances [] s s' ∧ SameControl s s' ∧ v < s'.values.size := by
  rw [addParam_run] at h
  cases h
  refine ⟨hf.stay (hf.built.addParam hblk t) (Advances.of_same (by simp) (termAt_modify fun _ => rfl) rfl rfl)
    rfl rfl rfl (fun hl => ⟨hl, List.not_mem_nil⟩) (fun j hj => absurd hj List.not_mem_nil)
    (fun j hj hj' => ?_), Advances.of_same (by simp) (termAt_modify fun _ => rfl) rfl rfl,
    ⟨rfl, rfl, rfl, rfl, rfl, rfl, rfl⟩, by simp⟩
  simp at hj'
  omega

/-- An operator that `ok` allows, applied to values made, runs in the current block. -/
theorem emit (hf : s.Formed ok) {o : Operator} {args : List Nat} {results : List ValType} {vs : List Nat}
    (hargs : ∀ v ∈ args, v < s.values.size) (ho : ok o) (h : (emit o args results).run s = .ok (vs, s')) :
    s'.Formed ok ∧ Advances [] s s' ∧ SameControl s s' ∧ s.values.size < s'.values.size ∧
      ∀ v ∈ vs, v < s'.values.size := by
  obtain ⟨picks, hpicks, rfl, hvs⟩ := Lower.emit_picks h
  refine ⟨hf.stay (hf.built.emit hf.cur hargs ho hpicks)
    (Advances.of_same (by simp) (termAt_modify fun _ => rfl) rfl rfl) rfl rfl rfl
    (fun hl => ⟨hl, List.not_mem_nil⟩) (fun j hj => absurd hj List.not_mem_nil) (fun j hj hj' => ?_),
    Advances.of_same (by simp) (termAt_modify fun _ => rfl) rfl rfl, ⟨rfl, rfl, rfl, rfl, rfl, rfl, rfl⟩,
    by simp only [Array.size_append, Array.size_push]; omega, hvs⟩
  simp at hj'
  omega

/-- An operator that `ok` allows takes its operands from the stack, runs in the current block
and pushes its results; live code stays live. -/
theorem operator (hf : s.Formed ok) {op : UInt8} {imm : Option Imm} (hok : ok ⟨op, imm⟩)
    (h : (operator op imm).run s = .ok ((), s')) :
    s'.Formed ok ∧ Advances [] s s' ∧ s'.unreachable = s.unreachable := by
  simp only [Lower.operator, StateT.run_bind] at h
  obtain ⟨⟨⟨n, results⟩, s₁⟩, h₁, h⟩ := bind_eq_ok h
  have hs₁ := effect_state h₁
  subst s₁
  obtain ⟨⟨args, s₂⟩, h₂, h⟩ := bind_eq_ok h
  obtain ⟨-, rfl, rfl⟩ := pop_run s h₂
  obtain ⟨⟨vs, s₃⟩, h₃, h⟩ := bind_eq_ok h
  have hf₂ := hf.popOperands (s.stack.size - n)
  obtain ⟨hf₃, ha₃, hsame₃, -, hvs⟩ := hf₂.emit (fun v hv => hf.top_below hv) hok h₃
  obtain ⟨sp, hrun, hsp⟩ := forIn_push_run vs s₃
  rw [hrun] at h
  cases h
  refine ⟨hf₃.setOperands _ _ (fun v hv => ?_) (hsp _ hf₃.built.bounded.spare hvs),
    (ha₃.congr_left s rfl rfl rfl).congr_right rfl rfl rfl, hsame₃.unreachable⟩
  rcases Array.mem_append.mp hv with hv | hv
  · exact hf₃.built.bounded.stack v hv
  · exact hvs v (by simpa using hv)

end Formed

end Lowering

end WasmImage.Ssa
