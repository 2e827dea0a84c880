import WasmImage.Proofs.LowerFrames

/-!
# Branches while lowering

A branch to a label goes to the block the label's frame continues in, to a loop header, or to
the block that returns, made on first use. Each of these *takes* the values the branch carries:
it exists, has one parameter per value, and is either named by a frame and not sealed, or the
block that returns (`Goes`). That stays so while lowering runs steps that seal neither it nor
the frames' blocks, so the edges a branch makes fit their targets.
-/

namespace WasmImage.Ssa

open Wasm Lower

namespace Lowering

variable {s s' : Lowering}

/-! ## The operand stack -/

/-- The top `n` operands, as `dup`, `peek` and `pop` give them. -/
theorem length_top {st : Array Nat} {n : Nat} (h : n ≤ st.size) :
    (st.extract (st.size - n) st.size).toList.length = n := by
  simp only [Array.length_toList, Array.size_extract]
  omega

theorem mem_of_mem_top {st : Array Nat} {n v : Nat} (h : v ∈ (st.extract (st.size - n) st.size).toList) :
    v ∈ st :=
  mem_of_mem_extract (Array.mem_toList_iff.mp h)

/-! ## Making blocks -/

/-! A block past the end of the arrays has no terminator, no edges and no parameters. -/

theorem termAt_of_le {bs : Array Block} {j : Nat} (h : bs.size ≤ j) : termAt bs j = none := by
  simp [termAt, Array.getElem?_eq_none h]

theorem paramCount_of_le {bs : Array Block} {j : Nat} (h : bs.size ≤ j) : paramCount bs j = 0 := by
  simp [paramCount, Array.getElem?_eq_none h]

theorem predsAt_of_le {sts : Array BlockState} {j : Nat} (h : sts.size ≤ j) : predsAt sts j = [] := by
  simp [predsAt, Array.getElem?_eq_none h]

/-- Sealing a block with no parameters left to complete only marks it sealed. -/
theorem sealBlock_complete {blk : Nat} (hst : (s.states[blk]?.getD {}).incomplete = #[])
    (h : (sealBlock blk).run s = .ok ((), s')) : s'.blocks = s.blocks ∧ s'.values = s.values := by
  rw [sealBlock] at h
  simp only [StateT.run_bind, stateAt_run, ok_bind] at h
  split at h
  · rw [pure_run] at h
    cases h
    exact ⟨rfl, rfl⟩
  · simp only [StateT.run_bind, modifyState_run, ok_bind, hst] at h
    cases h
    exact ⟨rfl, rfl⟩

/-- `s'` comes from `s` by adding `k` parameters to block `blk`. -/
structure AddsParams (blk k : Nat) (s s' : Lowering) : Prop where
  rest : ∃ bs vs, s' = { s with blocks := bs, values := vs }
  moves : Moves [] [] [blk] s s'
  size : s'.blocks.size = s.blocks.size
  params : paramCount s'.blocks blk = paramCount s.blocks blk + k
  term : termAt s'.blocks = termAt s.blocks

namespace AddsParams

variable {blk k : Nat} {s₀ : Lowering}

theorem refl (blk : Nat) (s : Lowering) : AddsParams blk 0 s s :=
  ⟨⟨_, _, rfl⟩, (Moves.refl s).mono (fun _ _ => Iff.rfl) (fun _ _ => id) (by simp) (by simp),
    rfl, rfl, rfl⟩

/-- One more parameter, added to a block no edge goes to. -/
theorem addParam (h : AddsParams blk k s₀ s) (hc : s.Coherent) (hblk : blk < s₀.blocks.size)
    (hfree : predsAt s₀.states blk = []) {t : ValType} {v : Nat}
    (hrun : (addParam blk t).run s = .ok (v, s')) :
    s'.Coherent ∧ AddsParams blk (k + 1) s₀ s' ∧ v < s'.values.size := by
  obtain ⟨bs, vs, rfl⟩ := h.rest
  have hblk' : blk < bs.size := h.size ▸ hblk
  obtain ⟨hc', hv⟩ := hc.addParam hblk' hfree hrun
  rw [addParam_run] at hrun
  cases hrun
  refine ⟨hc', ⟨⟨_, _, rfl⟩, ?_, by simpa using h.size, ?_, by simpa using h.term⟩, hv⟩
  · exact (h.moves.trans (Moves.addParam _ blk _)).mono (fun _ _ => Iff.rfl) (fun _ _ => id)
      (by simp) (by simp)
  · simp only [paramCount_pushParam hblk']
    rw [h.params]
    rfl

/-- Parameters added to a block no edge goes to, one per type. -/
theorem mapM (hblk : blk < s₀.blocks.size) (hfree : predsAt s₀.states blk = []) :
    ∀ (ts : List ValType) (k : Nat) (s : Lowering) (vals : List Nat) (s' : Lowering),
      s.Coherent → AddsParams blk k s₀ s → (ts.mapM (Lower.addParam blk)).run s = .ok (vals, s') →
      s'.Coherent ∧ AddsParams blk (k + ts.length) s₀ s' ∧ vals.length = ts.length ∧
        s.values.size ≤ s'.values.size ∧ ∀ v ∈ vals, v < s'.values.size
  | [], k, s, vals, s', hc, h, hrun => by
    simp only [List.mapM_nil, pure_run] at hrun
    cases hrun
    exact ⟨hc, h, rfl, Nat.le_refl _, by simp⟩
  | t :: ts, k, s, vals, s', hc, h, hrun => by
    simp only [List.mapM_cons, StateT.run_bind] at hrun
    obtain ⟨⟨v, s₁⟩, h₁, hrun⟩ := bind_eq_ok hrun
    obtain ⟨⟨vs, s₂⟩, h₂, hrun⟩ := bind_eq_ok hrun
    rw [pure_run] at hrun
    cases hrun
    obtain ⟨hc₁, hadd₁, hv⟩ := h.addParam hc hblk hfree h₁
    obtain ⟨hc₂, hadd₂, hlen, hle, hvs⟩ := mapM hblk hfree ts (k + 1) s₁ vs s₂ hc₁ hadd₁ h₂
    have hle₁ : s.values.size ≤ s₁.values.size := by
      rw [addParam_run] at h₁
      cases h₁
      simp
    refine ⟨hc₂, by simpa [Nat.add_assoc, Nat.add_comm 1] using hadd₂, by simp [hlen],
      Nat.le_trans hle₁ hle, ?_⟩
    intro w hw
    rcases List.mem_cons.mp hw with rfl | hw
    · exact Nat.lt_of_lt_of_le hv hle
    · exact hvs w hw

end AddsParams

/-! ## The block that returns -/

namespace Wf

/-- Asking for the block that returns keeps the invariant and the control state, and adds no
edge: the block is made, with one parameter per result, sealed and ended by returning them, the
first time it is asked for. -/
theorem returnBlock (hw : s.Wf) (hlive : s.unreachable = false) {b : Nat}
    (h : returnBlock.run s = .ok (b, s')) :
    s'.Wf ∧ Moves [] [] [] s s' ∧ s'.retBlock = some b ∧ SameControl s s' := by
  simp only [Lower.returnBlock, StateT.run_bind, get_run, ok_bind] at h
  split at h
  · -- made before
    rename_i r hr
    rw [pure_run] at h
    cases h
    exact ⟨hw, Moves.refl s, hr, SameControl.refl s⟩
  · rename_i hnone
    simp only [StateT.run_bind, newBlock_run, get_run, ok_bind] at h
    obtain ⟨⟨vals, s₂⟩, h₂, h⟩ := bind_eq_ok h
    obtain ⟨⟨_, s₃⟩, h₃, h⟩ := bind_eq_ok h
    simp only [modifyBlock_run, modify_run, ok_bind, pure_run] at h
    cases h
    have hsizes : s.states.size = s.blocks.size := hw.coherent.linked.sizes
    -- the new block, with one parameter per result
    have hc₁ := hw.coherent.newBlock
    have hfree : predsAt (s.states.push {}) s.blocks.size = [] := by
      rw [predsAt_push_empty, predsAt_of_le (by omega)]
    obtain ⟨hc₂, hadd, hlen, -, hvals⟩ :=
      AddsParams.mapM (by simp) hfree s.results 0 _ vals s₂ hc₁ (AddsParams.refl _ _) h₂
    obtain ⟨bs₂, vs₂, rfl⟩ := hadd.rest
    have hblk₂ : s.blocks.size < bs₂.size := by
      have := hadd.size
      simp only [Array.size_push] at this
      omega
    -- sealing it completes nothing
    have hcomplete : ((s.states.push {})[s.blocks.size]?.getD {}).incomplete = #[] := by
      rw [Array.getElem?_push, if_pos hsizes.symm]
      rfl
    obtain ⟨hc₃, hg₃, -⟩ := hc₂.sealBlock hblk₂ h₃
    obtain ⟨hbs₃, hvs₃⟩ := sealBlock_complete hcomplete h₃
    obtain ⟨bs₃, vs₃, sts₃, rfl⟩ := hg₃.rest
    simp only at hbs₃ hvs₃
    subst bs₃ vs₃
    have hopen : termAt bs₂ s.blocks.size = none := by
      rw [hadd.term, termAt_push_empty, termAt_of_le (Nat.le_refl _)]
    have hfits : Fits { s with blocks := bs₂, values := vs₂, states := sts₃ } (.ret vals) :=
      ⟨by simp [Terminator.successors],
        ⟨fun _ hv => by cases hv; exact hvals, by simp [Terminator.successors]⟩,
        fun _ hv => by cases hv; simpa using hlen⟩
    have hc₄ := hc₃.link hblk₂ hopen hfits
    have hterm : termAt (bs₂.modify s.blocks.size fun b => { b with term := some (.ret vals) })
        s.blocks.size = some (.ret vals) := by
      simp [termAt_setTerm hblk₂]
    have hc₅ := hc₄.setRet (by simpa using hblk₂) hterm
    have hm : Moves [] [] [] s
        { s with
          blocks := bs₂.modify s.blocks.size fun b => { b with term := some (.ret vals) }
          values := vs₂
          states := sts₃
          retBlock := some s.blocks.size } := by
      have hm₄ : Moves [s.blocks.size] ((Terminator.ret vals).successors.map (·.block)) []
          { s with blocks := bs₂, values := vs₂, states := sts₃ }
          { s with
            blocks := bs₂.modify s.blocks.size fun b => { b with term := some (.ret vals) }
            values := vs₂
            states := linkEdges s.blocks.size (Terminator.ret vals).successors.zipIdx sts₃ } :=
        Moves.link hblk₂ _ (by simp [Terminator.successors])
      have hm₅ := (((Moves.newBlock s).trans hadd.moves).trans ((Moves.of_grows hg₃).trans hm₄))
      have hm₆ : Moves _ _ _ s
          { s with
            blocks := bs₂.modify s.blocks.size fun b => { b with term := some (.ret vals) }
            values := vs₂
            states := sts₃
            retBlock := some s.blocks.size } := hm₅.of_control rfl rfl rfl (.inr hnone)
      refine hm₆.mono (fun j hj => ?_) (fun j hj hN => ?_) (fun j hj hS => ?_) (fun r hr => ?_)
      · simp only [List.nil_append, List.mem_singleton, List.not_mem_nil, iff_false]
        omega
      · simp [Terminator.successors] at hN
      · simp only [List.nil_append, List.append_nil, List.mem_append, List.mem_singleton,
          or_self] at hS
        omega
      · simp [hnone] at hr
    obtain ⟨hlt, hnone', hpend⟩ := hw.reach hlive
    refine ⟨hw.keep hlive hc₅ hm rfl rfl rfl (by simp) (by simp) (by simp) (by simp)
      (fun r hr _ => ?_) (fun _ => ⟨hlive, rfl⟩) (fun _ => ?_) (fun j hj hj' hnew => ?_), hm, rfl,
      ⟨rfl, rfl, rfl, rfl, rfl, rfl, rfl⟩⟩
    · -- one parameter per result, and no frame names it
      cases hr
      refine ⟨?_, fun hb => Nat.lt_irrefl _ (hw.lt_of_mem_blocksOf hb)⟩
      rw [paramCount_setTerm, hadd.params, paramCount_push_empty, paramCount_of_le (Nat.le_refl _)]
      simp
    · refine ⟨Nat.lt_of_lt_of_le hlt hm.size, (hm.term _ hlt).mpr ⟨hnone', by simp⟩, hpend⟩
    · -- the only new block is the one that returns, and it is ended
      have hj₀ : j = s.blocks.size := by
        simp only [Array.size_modify] at hj'
        have := hadd.size
        simp only [Array.size_push] at this
        omega
      subst hj₀
      simp [hterm] at hnew

end Wf

/-! ## Branch targets -/

/-- Block `blk` takes `n` values: it exists, has `n` parameters, and is named by a frame and
not sealed, or is the block that returns. -/
structure Goes (s : Lowering) (blk n : Nat) : Prop where
  lt : blk < s.blocks.size
  params : paramCount s.blocks blk = n
  named : (blk ∈ blocksOf s.frames ∧ sealedAt s.states blk = false) ∨ s.retBlock = some blk

/-- A block that takes values keeps doing so over steps that do not seal it and leave the frames
alone. -/
theorem Goes.moves {E N S : List Nat} {blk n : Nat} (h : s.Goes blk n) (hm : Moves E N S s s')
    (hS : blk ∉ S) (hframes : s'.frames = s.frames) : s'.Goes blk n := by
  refine ⟨Nat.lt_of_lt_of_le h.lt hm.size, ?_, ?_⟩
  · rcases h.named with ⟨-, hsealed⟩ | hret
    · exact (hm.params blk h.lt hS hsealed).trans h.params
    · exact (hm.ret blk hret hS).2.trans h.params
  · rcases h.named with ⟨hb, hsealed⟩ | hret
    · exact .inl ⟨hframes ▸ hb, (hm.sealed blk h.lt hS).trans hsealed⟩
    · exact .inr (hm.ret blk hret hS).1

/-- A block that takes values and is not ended is named by a frame. -/
theorem Goes.named_of_open (hc : s.Coherent) {blk n : Nat} (h : s.Goes blk n)
    (hopen : termAt s.blocks blk = none) : blk ∈ blocksOf s.frames := by
  rcases h.named with ⟨hb, -⟩ | hret
  · exact hb
  · obtain ⟨-, vals, hvals⟩ := hc.linked.ret blk hret
    simp [hopen] at hvals

/-- The block a branch to `label` goes to takes the values the branch carries; finding it keeps
the invariant and the control state, and adds no edge. -/
theorem Wf.target (hw : s.Wf) (hlive : s.unreachable = false) {label : UInt32} {blk n : Nat}
    (h : (target label).run s = .ok ((blk, n), s')) :
    s'.Wf ∧ Moves [] [] [] s s' ∧ SameControl s s' ∧ s'.Goes blk n := by
  simp only [Lower.target, StateT.run_bind, get_run, ok_bind] at h
  split at h
  · cases h
  · cases hf : s.frames[s.frames.size - 1 - label.toNat]? with
    | none => simp only [hf] at h; cases h
    | some f =>
      simp only [hf] at h
      have hok := hw.frames f (Array.mem_of_getElem? hf)
      split at h
      · -- the function's frame: the block that returns
        rename_i hk
        rw [StateT.run_bind] at h
        obtain ⟨⟨b, s₁⟩, h₁, h⟩ := bind_eq_ok h
        rw [pure_run] at h
        cases h
        obtain ⟨hw₁, hm, hret, hsame⟩ := hw.returnBlock hlive h₁
        refine ⟨hw₁, hm, hsame, (hw₁.coherent.linked.ret b hret).1, ?_, .inr hret⟩
        rw [hw₁.retParams b hret, hsame.results]
        exact congrArg List.length (hok.function hk).symm
      · -- a loop: its header
        rename_i hk
        rw [pure_run] at h
        cases h
        obtain ⟨hlt, hsealed, hparams⟩ := hok.loop hk
        refine ⟨hw, Moves.refl s, SameControl.refl s, hlt, hparams, .inl ⟨?_, hsealed⟩⟩
        exact mem_blocksOf.mpr ⟨f, Array.mem_of_getElem? hf, Frame.mem_blocks.mpr (.inr ⟨.inl hk, rfl⟩)⟩
      · -- any other frame: the block it continues in
        rename_i hfun hloop
        rw [pure_run] at h
        cases h
        have hopen := hok.following hfun
        refine ⟨hw, Moves.refl s, SameControl.refl s, hopen.lt, hopen.params, .inl ⟨?_, hopen.unsealed⟩⟩
        exact mem_blocksOf.mpr ⟨f, Array.mem_of_getElem? hf, Frame.mem_blocks.mpr (.inl ⟨hfun, rfl⟩)⟩

/-! ## Branches -/

namespace Wf

/-- The values on top of the stack, made as every value on it is. -/
theorem top_below (hw : s.Wf) {n v : Nat} (hv : v ∈ (s.stack.extract (s.stack.size - n) s.stack.size).toList) :
    v < s.values.size :=
  hw.coherent.bounded.stack v (mem_of_mem_top hv)

/-- A branch ends the current block: a branch to the function's own label returns the values on
top of the stack, any other passes them to the block of its label. -/
theorem br (hw : s.Wf) (hlive : s.unreachable = false) {label : UInt32}
    (h : (br label).run s = .ok ((), s')) :
    s'.Wf ∧ s'.frames = s.frames ∧ s'.deadDepth = s.deadDepth := by
  simp only [Lower.br, StateT.run_bind, get_run, ok_bind] at h
  split at h
  · -- a return
    rw [StateT.run_bind] at h
    obtain ⟨⟨vals, s₁⟩, h₁, h⟩ := bind_eq_ok h
    obtain ⟨hn, rfl, rfl⟩ := peek_run s h₁
    refine hw.terminate hlive ⟨by simp [Terminator.successors],
      ⟨fun _ hv v hmem => ?_, by simp [Terminator.successors]⟩, fun _ hv => ?_⟩
      (by simp [Terminator.successors]) h
    · cases hv
      exact hw.top_below hmem
    · cases hv
      exact length_top hn
  · rw [StateT.run_bind] at h
    obtain ⟨⟨⟨blk, n⟩, s₁⟩, h₁, h⟩ := bind_eq_ok h
    obtain ⟨hw₁, -, hsame, hgoes⟩ := hw.target hlive h₁
    rw [StateT.run_bind] at h
    obtain ⟨⟨args, s₂⟩, h₂, h⟩ := bind_eq_ok h
    obtain ⟨hn, rfl, hs₂⟩ := peek_run _ h₂
    subst s₂
    have hfits : s₁.Fits (.br ⟨blk, (s₁.stack.extract (s₁.stack.size - n) s₁.stack.size).toList⟩) := by
      refine ⟨fun e he => ?_, ⟨by simp, fun e he v hv => ?_⟩, by simp⟩
      all_goals simp only [Terminator.successors, List.mem_singleton] at he
      all_goals subst he
      · exact ⟨hgoes.lt, (length_top hn).trans hgoes.params.symm⟩
      · exact hw₁.top_below hv
    obtain ⟨hw', hframes, hdepth⟩ := hw₁.terminate (hsame.unreachable.trans hlive) hfits
      (fun e he hopen => by
        simp only [Terminator.successors, List.mem_singleton] at he
        subst he
        exact hgoes.named_of_open hw₁.coherent hopen) h
    exact ⟨hw', hframes.trans hsame.frames, hdepth.trans hsame.deadDepth⟩

/-- A conditional branch ends the current block with an edge to the block of its label and one
to a new block, sealed at once, in which code goes on. -/
theorem brIf (hw : s.Wf) (hlive : s.unreachable = false) {label : UInt32}
    (h : (brIf label).run s = .ok ((), s')) :
    s'.Wf ∧ s'.frames = s.frames ∧ s'.deadDepth = s.deadDepth := by
  simp only [Lower.brIf, StateT.run_bind] at h
  obtain ⟨⟨cond, s₁⟩, h₁, h⟩ := bind_eq_ok h
  obtain ⟨-, -, hs₁⟩ := pop_run s h₁
  have hw₁ : s₁.Wf := hs₁ ▸ hw.popOperands hlive _
  have hsame₁ : s₁.frames = s.frames ∧ s₁.deadDepth = s.deadDepth ∧ s₁.unreachable = false := by
    rw [hs₁]
    exact ⟨rfl, rfl, hlive⟩
  obtain ⟨⟨⟨blk, n⟩, s₂⟩, h₂, h⟩ := bind_eq_ok h
  obtain ⟨hw₂, -, hsame₂, hgoes⟩ := hw₁.target hsame₁.2.2 h₂
  have hlive₂ : s₂.unreachable = false := hsame₂.unreachable.trans hsame₁.2.2
  obtain ⟨⟨args, s₃⟩, h₃, h⟩ := bind_eq_ok h
  obtain ⟨hn, rfl, hs₃⟩ := peek_run _ h₃
  subst s₃
  simp only [newBlock_run, ok_bind, terminate_run] at h
  obtain ⟨⟨_, s₅⟩, h₅, h⟩ := bind_eq_ok h
  rw [modify_run] at h
  cases h
  set next := s₂.blocks.size with hnext
  set t : Terminator := .condBr (cond.headD 0)
    ⟨blk, (s₂.stack.extract (s₂.stack.size - n) s₂.stack.size).toList⟩ ⟨next, []⟩ with ht
  have hb₂ : s₂.Bounded := hw₂.coherent.bounded
  have hsizes : s₂.states.size = s₂.blocks.size := hw₂.coherent.linked.sizes
  obtain ⟨hcur, hopen, hpend⟩ := hw₂.reach hlive₂
  -- the terminator goes to the label's block and to the new one
  have hcur₃ : s₂.cur < (s₂.blocks.push {}).size := by
    simp only [Array.size_push]
    omega
  have hopen₃ : termAt (s₂.blocks.push {}) s₂.cur = none := by
    rw [termAt_push_empty]
    exact hopen
  have hfits : Fits { s₂ with blocks := s₂.blocks.push {}, states := s₂.states.push {} } t := by
    refine ⟨fun e he => ?_, ⟨by simp [ht], fun e he v hv => ?_⟩, by simp [ht]⟩
    all_goals simp only [ht, Terminator.successors, List.mem_cons, List.not_mem_nil,
      or_false] at he
    · rcases he with rfl | rfl
      · simp only [Array.size_push, paramCount_push_empty]
        exact ⟨Nat.lt_succ_of_lt hgoes.lt, (length_top hn).trans hgoes.params.symm⟩
      · simp [hnext, paramCount_of_le]
    · rcases he with rfl | rfl
      · exact hw₂.top_below hv
      · simp at hv
  have htargets : ∀ e ∈ t.successors, e.block < (s₂.states.push {}).size := fun e he => by
    simpa [hsizes] using (hfits.targets e he).1
  have hc₄ := hw₂.coherent.newBlock.link hcur₃ hopen₃ hfits
  obtain ⟨hc₅, hg₅, -⟩ := Coherent.sealBlock
    (by exact hc₄.of_control rfl rfl rfl rfl rfl hb₂.stack hb₂.spare hb₂.elseArgs) (by simp [hnext]) h₅
  have hm₄ : Moves [s₂.cur] (t.successors.map (·.block)) []
      { s₂ with blocks := s₂.blocks.push {}, states := s₂.states.push {} } _ :=
    Moves.link hcur₃ t htargets
  have hm₅ := ((Moves.newBlock s₂).trans hm₄).trans_control (Moves.of_grows hg₅) rfl rfl rfl rfl
  have hm₅' := hm₄.trans_control (Moves.of_grows hg₅) rfl rfl rfl rfl
  have hsame₅ := SameControl.of_grows hg₅
  obtain ⟨bs₅, vs₅, sts₅, hs₅⟩ := hg₅.rest
  have hsize₅ : s₅.blocks.size = s₂.blocks.size + 1 := by simp [hg₅.blocks]
  have hnext₅ : termAt s₅.blocks next = none := by
    have hlt : next < (s₂.blocks.push {}).size := by simp [hnext]
    refine (hm₅'.term next hlt).mpr ⟨?_, ?_⟩
    · rw [termAt_push_empty, termAt_of_le (Nat.le_refl _)]
    · simp only [List.append_nil, List.mem_singleton]
      omega
  refine ⟨hw₂.keep hlive₂ (hc₅.of_control rfl rfl rfl rfl rfl ?_ ?_ ?_)
    (hm₅.of_control rfl rfl rfl (.inl rfl)) hsame₅.frames hsame₅.results hsame₅.deadDepth
    (fun j hj => ?_) (fun j hj hj' hopen' => ?_) (fun j hj => ?_) (fun r hr => ?_) (fun r hr hnone => ?_)
    (fun hopen' => ?_) (fun _ => ⟨?_, hnext₅, ?_⟩)
    (fun j hj hj' _ => .inl ⟨rfl, ?_⟩),
    hsame₅.frames.trans (hsame₂.frames.trans hsame₁.1),
    hsame₅.deadDepth.trans (hsame₂.deadDepth.trans hsame₁.2.1)⟩
  · exact fun v hv => Nat.lt_of_lt_of_le (hb₂.stack v (hsame₅.stack ▸ hv)) hm₅.values
  · exact fun v hv => Nat.lt_of_lt_of_le (hb₂.spare v (hsame₅.spare ▸ hv)) hm₅.values
  · exact fun f hf v hv => Nat.lt_of_lt_of_le (hb₂.elseArgs f (hsame₅.frames ▸ hf) v hv) hm₅.values
  · simp only [List.nil_append, List.append_nil, List.mem_singleton] at hj
    exact hj ▸ hpend
  · simp only [List.nil_append, List.append_nil, List.mem_map, ht, Terminator.successors,
      List.mem_cons, List.not_mem_nil, or_false] at hj
    obtain ⟨e, rfl | rfl, rfl⟩ := hj
    · exact hgoes.named_of_open hw₂.coherent hopen'
    · exact absurd hj' (Nat.lt_irrefl _)
  · simp only [List.nil_append, List.mem_singleton] at hj
    exact hj ▸ fun hb => Nat.lt_irrefl _ (hw₂.lt_of_mem_blocksOf hb)
  · simp only [List.nil_append, List.mem_singleton]
    intro h
    have hr₂ := (hw₂.coherent.linked.ret r hr).1
    rw [h] at hr₂
    exact Nat.lt_irrefl _ hr₂
  · rw [hs₅] at hr
    simp [hnone] at hr
  · have := (hm₅.term s₂.cur hcur).mp hopen'
    simp at this
  · show next < s₅.blocks.size
    rw [hsize₅]
    exact Nat.lt_succ_self _
  · exact fun hp => Nat.lt_irrefl next (hw₂.lt_of_mem_blocksOf (mem_blocksOf_of_pending hp))
  · have hj₅ : j < s₅.blocks.size := hj'
    rw [hsize₅] at hj₅
    show j = next
    omega

/-- A table branch ends the current block with an edge to the block of each label and of the
default, each carrying the values on top of the stack: every label carries as many as the
default. -/
theorem brTable (hw : s.Wf) (hlive : s.unreachable = false) {labels : List UInt32}
    {default : UInt32} (h : (brTable labels default).run s = .ok ((), s')) :
    s'.Wf ∧ s'.frames = s.frames ∧ s'.deadDepth = s.deadDepth := by
  simp only [Lower.brTable, StateT.run_bind] at h
  obtain ⟨⟨index, s₁⟩, h₁, h⟩ := bind_eq_ok h
  obtain ⟨-, -, hs₁⟩ := pop_run s h₁
  have hw₁ : s₁.Wf := hs₁ ▸ hw.popOperands hlive _
  have hsame₁ : s₁.frames = s.frames ∧ s₁.deadDepth = s.deadDepth ∧ s₁.unreachable = false := by
    rw [hs₁]
    exact ⟨rfl, rfl, hlive⟩
  split at h
  · obtain ⟨hw', hframes, hdepth⟩ := hw₁.br hsame₁.2.2 h
    exact ⟨hw', hframes.trans hsame₁.1, hdepth.trans hsame₁.2.1⟩
  · rw [StateT.run_bind] at h
    obtain ⟨⟨⟨blk, n⟩, s₂⟩, h₂, h⟩ := bind_eq_ok h
    obtain ⟨hw₂, -, hsame₂, hgoes⟩ := hw₁.target hsame₁.2.2 h₂
    rw [StateT.run_bind] at h
    obtain ⟨⟨args, s₃⟩, h₃, h⟩ := bind_eq_ok h
    obtain ⟨hn, rfl, hs₃⟩ := peek_run _ h₃
    subst s₃
    rw [StateT.run_bind] at h
    obtain ⟨⟨targets, s₄⟩, h₄, h⟩ := bind_eq_ok h
    have key := forIn_run_invariant (fun _ acc t => t.Wf ∧ Moves [] [] [] s₂ t ∧ SameControl s₂ t ∧
        ∀ e ∈ acc, t.Goes e.block n ∧ e.args = (s₂.stack.extract (s₂.stack.size - n) s₂.stack.size).toList)
      ?_ ⟨hw₂, Moves.refl s₂, SameControl.refl s₂, by simp⟩ h₄
    · obtain ⟨hw₄, hm₄, hsame₄, htargets⟩ := key
      have hgoes₄ := hgoes.moves hm₄ (by simp) hsame₄.frames
      have hfits : s₄.Fits (.select (index.headD 0) targets.toList
          ⟨blk, (s₂.stack.extract (s₂.stack.size - n) s₂.stack.size).toList⟩) := by
        refine ⟨fun e he => ?_, ⟨by simp, fun e he v hv => ?_⟩, by simp⟩
        all_goals simp only [Terminator.successors, List.mem_append, Array.mem_toList_iff,
          List.mem_singleton] at he
        · rcases he with he | rfl
          · obtain ⟨hg, hargs⟩ := htargets e he
            exact ⟨hg.lt, by rw [hargs, length_top hn, hg.params]⟩
          · exact ⟨hgoes₄.lt, by rw [length_top hn, hgoes₄.params]⟩
        · have hv' : v ∈ (s₂.stack.extract (s₂.stack.size - n) s₂.stack.size).toList := by
            rcases he with he | rfl
            · rwa [← (htargets e he).2]
            · exact hv
          exact Nat.lt_of_lt_of_le (hw₂.top_below hv') hm₄.values
      obtain ⟨hw', hframes, hdepth⟩ := hw₄.terminate
        (hsame₄.unreachable.trans (hsame₂.unreachable.trans hsame₁.2.2)) hfits
        (fun e he hopen => by
          simp only [Terminator.successors, List.mem_append, Array.mem_toList_iff,
            List.mem_singleton] at he
          rcases he with he | rfl
          · exact (htargets e he).1.named_of_open hw₄.coherent hopen
          · exact hgoes₄.named_of_open hw₄.coherent hopen) h
      exact ⟨hw', hframes.trans (hsame₄.frames.trans (hsame₂.frames.trans hsame₁.1)),
        hdepth.trans (hsame₄.deadDepth.trans (hsame₂.deadDepth.trans hsame₁.2.1))⟩
    · -- each label goes to a block that takes as many values as the default's
      rintro pre label rest acc t r t' hpre ⟨hwt, hmt, hsame, hacc⟩ hstep
      rw [StateT.run_bind] at hstep
      obtain ⟨⟨⟨b, m⟩, t₁⟩, ht₁, hstep⟩ := bind_eq_ok hstep
      obtain ⟨hwt₁, hmt₁, hsamet₁, hgoes₁⟩ :=
        hwt.target (hsame.unreachable.trans (hsame₂.unreachable.trans hsame₁.2.2)) ht₁
      split at hstep
      · simp only [StateT.run_bind] at hstep
        cases hstep
      · rename_i hm
        rw [StateT.run_bind, dup_run, ok_bind, pure_run] at hstep
        cases hstep
        have hmn : m = n := by simpa using hm
        subst hmn
        refine ⟨_, rfl, hwt₁, hmt.trans hmt₁, hsame.trans hsamet₁, fun e he => ?_⟩
        rcases Array.mem_push.mp he with he | rfl
        · obtain ⟨hg, hargs⟩ := hacc e he
          exact ⟨hg.moves hmt₁ (by simp) hsamet₁.frames, hargs⟩
        · exact ⟨hgoes₁, by rw [hsamet₁.stack, hsame.stack]⟩

end Wf

end Lowering

end WasmImage.Ssa
