import WasmImage.Proofs.LowerBranches

/-!
# Entering and leaving control frames

`block`, `loop` and `if` make the blocks their frame names, all new: the block the frame
continues in, with one parameter per result, and the loop header or the else block. A loop
branches to its header and goes on there; an `if` ends the current block with a conditional
branch to a new then block, where it goes on, and to its else block. `else` ends the then
branch and goes on in the else block; `end` ends the frame's last block, branching to the block
the frame continues in, and goes on there. Each keeps `Wf`, and says how the frames change,
which is what the static check of `if`s without `else` follows.
-/

namespace WasmImage.Ssa

open Wasm Lower

namespace Lowering

variable {s s' : Lowering} {E N S : List Nat}

/-! ## New blocks -/

theorem sealedAt_of_le {sts : Array BlockState} {j : Nat} (h : sts.size ≤ j) : sealedAt sts j = false := by
  simp [sealedAt, Array.getElem?_eq_none h]

/-- A block just made is open, with no parameters. -/
theorem open_newBlock (s : Lowering) (hsizes : s.states.size = s.blocks.size) :
    Lowering.Open { s with blocks := s.blocks.push {}, states := s.states.push {} } s.blocks.size 0 where
  lt := by simp
  unsealed := by simp [sealedAt_of_le, hsizes]
  unended := by simp [termAt_of_le]
  params := by simp [paramCount_of_le]

theorem Grows.retBlock_eq {S : List Nat} (h : Grows S s s') : s'.retBlock = s.retBlock := by
  obtain ⟨bs, vs, sts, rfl⟩ := h.rest
  rfl

/-- Whether a block has no edges, as `switchTo` asks it. -/
theorem preds_isEmpty (sts : Array BlockState) (j : Nat) :
    (sts[j]?.getD {}).preds.isEmpty = (predsAt sts j).isEmpty := by
  rw [predsAt_eq_getD, Array.isEmpty_toList]

/-- The parameters of a block, as `switchTo` reads them, are made. -/
theorem Bounded.params_below (hb : s.Bounded) (j : Nat) :
    ∀ v ∈ (s.blocks[j]?.getD {}).params, v < s.values.size := by
  intro v hv
  cases hj : s.blocks[j]? with
  | none => simp [hj] at hv
  | some b =>
    rw [hj, Option.getD_some] at hv
    exact (hb.blocks b (Array.mem_of_getElem? hj)).1 v hv

/-- The operands `switchTo` leaves are made. -/
theorem Bounded.switchTo_below (hb : s.Bounded) (base j n : Nat) :
    ∀ v ∈ s.backing.extract 0 base ++ (s.blocks[j]?.getD {}).params.extract 0 n, v < s.values.size :=
  resliced_below (backing_below hb.stack hb.spare) fun v hv =>
    hb.params_below j v (mem_of_mem_extract hv)

/-- The backing array `switchTo` leaves past the operands is made. -/
theorem Bounded.switchTo_spare_below (hb : s.Bounded) (base j n : Nat) :
    ∀ v ∈ appendSpare (s.backing.extract 0 base).size (s.backing.extract base s.backing.size)
      ((s.blocks[j]?.getD {}).params.extract 0 n), v < s.values.size :=
  resliced_spare_below (backing_below hb.stack hb.spare) fun v hv =>
    hb.params_below j v (mem_of_mem_extract hv)

namespace AddsParams

variable {blk k : Nat} {s₀ : Lowering}

/-- A block made with no parameters is open with the `k` added to it. -/
theorem «open» (h : AddsParams blk k s₀ s) (ho : s₀.Open blk 0) : s.Open blk k := by
  obtain ⟨bs, vs, rfl⟩ := h.rest
  refine ⟨?_, ho.unsealed, ?_, ?_⟩
  · rw [h.size]
    exact ho.lt
  · rw [h.term]
    exact ho.unended
  · rw [h.params, ho.params, Nat.zero_add]

theorem sameControl (h : AddsParams blk k s₀ s) : SameControl s₀ s := by
  obtain ⟨bs, vs, rfl⟩ := h.rest
  exact ⟨rfl, rfl, rfl, rfl, rfl, rfl, rfl⟩

theorem states (h : AddsParams blk k s₀ s) : s.states = s₀.states ∧ s.retBlock = s₀.retBlock := by
  obtain ⟨bs, vs, rfl⟩ := h.rest
  exact ⟨rfl, rfl⟩

/-- Parameters added to a block no edge goes to, one per type, in a loop. -/
theorem forIn_addParam {ts : List ValType} (hc : s₀.Coherent) (hblk : blk < s₀.blocks.size)
    (hfree : predsAt s₀.states blk = [])
    (h : (forIn ts PUnit.unit fun t _ => do
        let _ ← Lower.addParam blk t
        pure (ForInStep.yield PUnit.unit) : LowerM PUnit).run s₀ = .ok (PUnit.unit, s)) :
    s.Coherent ∧ AddsParams blk ts.length s₀ s := by
  refine forIn_run_invariant (fun pre _ t => t.Coherent ∧ AddsParams blk pre.length s₀ t) ?_
    ⟨hc, AddsParams.refl blk s₀⟩ h
  intro pre t rest _ t₀ r t₁ _ ⟨hc₀, hadd⟩ hstep
  rw [StateT.run_bind] at hstep
  obtain ⟨⟨v, t₂⟩, h₂, hstep⟩ := bind_eq_ok hstep
  rw [pure_run] at hstep
  cases hstep
  obtain ⟨hc₂, hadd₂, -⟩ := hadd.addParam hc₀ hblk hfree h₂
  exact ⟨_, rfl, hc₂, by simpa using hadd₂⟩

end AddsParams

namespace Wf

/-- Pushing a frame whose blocks are all new keeps the invariant, under the conditions of
`extend`. -/
theorem push {fr : Frame} (hw : s.Wf) (hlive : s.unreachable = false) (hc : s'.Coherent)
    (hm : Moves E N S s s') (hframes : s'.frames = s.frames.push fr) (hresults : s'.results = s.results)
    (hdepth : s'.deadDepth = s.deadDepth)
    (hE : ∀ j ∈ E, j ∉ pendingOf s.frames)
    (hN : ∀ j ∈ N, j < s.blocks.size → termAt s.blocks j = none → j ∈ blocksOf s.frames)
    (hS : ∀ j ∈ S, j ∉ blocksOf s.frames) (hSr : ∀ r, s.retBlock = some r → r ∉ S)
    (hret : s'.retBlock = s.retBlock) (hok : fr.Ok s') (hkind : fr.kind ≠ .function)
    (hfresh : ∀ j ∈ fr.blocks, s.blocks.size ≤ j) (hnodup : fr.blocks.Nodup)
    (hcur : termAt s'.blocks s.cur = none → s'.unreachable = false ∧ s'.cur = s.cur)
    (hreach : s'.unreachable = false →
      s'.cur < s'.blocks.size ∧ termAt s'.blocks s'.cur = none ∧ s'.cur ∉ pendingOf s'.frames)
    (hnew : ∀ j, s.blocks.size ≤ j → j < s'.blocks.size → termAt s'.blocks j = none →
      (s'.unreachable = false ∧ j = s'.cur) ∨ j ∈ fr.pending ∨
        (predsAt s'.states j = [] ∧ j ∉ fr.blocks)) : s'.Wf := by
  refine hw.extend hlive hc hm (hframes.trans Array.push_eq_append) hresults hdepth hE hN hS hSr
    (fun r hr hnone => by rw [hret, hnone] at hr; cases hr) (by simpa using hok) (by simpa using hkind)
    (by simpa [blocksOf] using hfresh) (by simpa [blocksOf] using hnodup) hcur hreach
    (fun j hj hj' hnone => ?_)
  simpa [blocksOf, pendingOf] using hnew j hj hj' hnone

/-- Entering a block makes the block it continues in, with one parameter per result, and pushes
its frame. -/
theorem enter_block (hw : s.Wf) (hlive : s.unreachable = false) {params results : List ValType}
    (h : (enter 0x02 params results).run s = .ok ((), s')) :
    s'.Wf ∧ s'.deadDepth = s.deadDepth ∧ ∃ fr : Frame, s'.frames = s.frames.push fr ∧
      fr.kind = .block ∧ fr.params = params ∧ fr.results = results := by
  simp only [enter, StateT.run_bind, get_run, ok_bind] at h
  split at h
  · cases h
  simp only [StateT.run_bind, newBlock_run, ok_bind] at h
  obtain ⟨⟨_, s₁⟩, h₁, h⟩ := bind_eq_ok h
  rw [modify_run] at h
  cases h
  have hsizes := hw.coherent.linked.sizes
  obtain ⟨hc₁, hadd⟩ := AddsParams.forIn_addParam hw.coherent.newBlock (by simp)
    (by simp [predsAt_of_le, hsizes]) h₁
  have hopen := hadd.open (open_newBlock s hsizes)
  obtain ⟨bs, vs, rfl⟩ := hadd.rest
  have hsize : bs.size = s.blocks.size + 1 := by simpa using hadd.size
  obtain ⟨hlt, hnone, hpend⟩ := hw.reach hlive
  have hfresh : s.blocks.size ∉ blocksOf s.frames := fun hb => Nat.lt_irrefl _ (hw.lt_of_mem_blocksOf hb)
  refine ⟨?_, rfl, _, rfl, rfl, rfl, rfl⟩
  refine hw.push hlive (hc₁.of_control rfl rfl rfl rfl rfl hc₁.bounded.stack hc₁.bounded.spare (hc₁.bounded.elseArgs_push (by simp)))
    (((Moves.newBlock s).trans hadd.moves).of_control rfl rfl rfl (.inl rfl)) rfl rfl rfl
    (by simp) (by simp) (by simpa using hfresh) (fun r hr => ?_) rfl
    ⟨(by rintro ⟨⟩), fun _ => ⟨hopen.lt, hopen.unsealed, hopen.unended, hopen.params⟩, (by rintro ⟨⟩), (by rintro ⟨⟩)⟩ (by rintro ⟨⟩) (by simp [Frame.blocks])
    (by simp [Frame.blocks]) (fun _ => ⟨hlive, rfl⟩) (fun _ => ⟨?_, ?_, ?_⟩) (fun j hj hj' _ => ?_)
  · simp only [List.nil_append, List.mem_singleton]
    exact fun h => Nat.lt_irrefl _ (h ▸ (hw.coherent.linked.ret r hr).1)
  · show s.cur < bs.size
    omega
  · show termAt bs s.cur = none
    rw [hadd.term, termAt_push_empty]
    exact hnone
  · simp only [pendingOf_push, List.mem_append, not_or]
    refine ⟨hpend, ?_⟩
    simp only [Frame.pending, List.mem_singleton]
    omega
  · -- the only new block is the one the frame continues in
    right; left
    simp only [Frame.pending, List.mem_singleton]
    simp only at hj'
    omega

/-- Entering a loop makes its header, with one parameter per loop parameter, and the block it
continues in, with one per result; it branches to the header and goes on there. -/
theorem enter_loop (hw : s.Wf) (hlive : s.unreachable = false) {params results : List ValType}
    (h : (enter 0x03 params results).run s = .ok ((), s')) :
    s'.Wf ∧ s'.deadDepth = s.deadDepth ∧ ∃ fr : Frame, s'.frames = s.frames.push fr ∧
      fr.kind = .loop ∧ fr.params = params ∧ fr.results = results := by
  simp only [enter, StateT.run_bind, get_run, ok_bind] at h
  split at h
  · cases h
  rename_i hunder
  simp only [StateT.run_bind, newBlock_run, ok_bind] at h
  obtain ⟨⟨_, s₂⟩, h₂, h⟩ := bind_eq_ok h
  obtain ⟨⟨_, s₃⟩, h₃, h⟩ := bind_eq_ok h
  simp only [dup_run, terminate_run, modify_run, switchTo_run, ok_bind] at h
  have hsizes := hw.coherent.linked.sizes
  obtain ⟨hlt, hnone, hpend⟩ := hw.reach hlive
  have hfresh : ∀ j, s.blocks.size ≤ j → j ∉ blocksOf s.frames :=
    fun j hj hb => Nat.lt_irrefl _ (Nat.lt_of_lt_of_le (hw.lt_of_mem_blocksOf hb) hj)
  -- the header, with one parameter per loop parameter
  have ho₁ := (open_newBlock s hsizes).moves (Moves.newBlock _) (by simp) (by simp)
  have hof₁ := open_newBlock { s with blocks := s.blocks.push {}, states := s.states.push {} }
    (by simp [hsizes])
  obtain ⟨hc₂, hadd₂⟩ := AddsParams.forIn_addParam hw.coherent.newBlock.newBlock ho₁.lt
    (by simp [predsAt_of_le, hsizes]) h₂
  have ho₂ := hadd₂.open ho₁
  -- the block after the loop, with one parameter per result
  have hof₂ := hof₁.moves hadd₂.moves (by simp) (by simp)
  have hfree₂ : predsAt s₂.states (s.blocks.push {}).size = [] := by
    rw [hadd₂.moves.preds _ hof₁.lt (by simp)]
    simp [predsAt_of_le, hsizes]
  obtain ⟨hc₃, hadd₃⟩ := AddsParams.forIn_addParam hc₂ hof₂.lt hfree₂ h₃
  have hof₃ := hadd₃.open hof₂
  have ho₃ := ho₂.moves hadd₃.moves (by simp) (by simp)
  have hsame : SameControl s s₃ := by
    have h := hadd₂.sameControl.trans hadd₃.sameControl
    exact ⟨h.stack, h.spare, h.frames, h.cur, h.unreachable, h.deadDepth, h.results⟩
  have hsize₃ : s₃.blocks.size = s.blocks.size + 2 := by
    rw [hadd₃.size, hadd₂.size]
    simp
  have hstates₃ : s₃.states = (s.states.push {}).push {} ∧ s₃.retBlock = s.retBlock := by
    rw [hadd₃.states.1, hadd₂.states.1, hadd₃.states.2, hadd₂.states.2]
    exact ⟨rfl, rfl⟩
  -- the branch to the header passes the loop parameters
  have hcur₃ : s₃.cur < s₃.blocks.size := by
    rw [hsame.cur]
    omega
  have hnone₃ : termAt s₃.blocks s₃.cur = none := by
    rw [hadd₃.term, hadd₂.term, hsame.cur]
    simpa using hnone
  set args := (s₃.stack.extract (s₃.stack.size - params.length) s₃.stack.size).toList with hargs
  have hlen : args.length = params.length := length_top (by rw [hsame.stack]; omega)
  have hfits : s₃.Fits (.br ⟨s.blocks.size, args⟩) := by
    refine ⟨fun e he => ?_, ⟨by simp, fun e he v hv => ?_⟩, fun _ h => by cases h⟩
    all_goals simp only [Terminator.successors, List.mem_singleton] at he
    all_goals subst he
    · exact ⟨ho₃.lt, by rw [hlen, ho₃.params]⟩
    · exact hc₃.bounded.stack v (mem_of_mem_top hv)
  have htargets : ∀ e ∈ (Terminator.br ⟨s.blocks.size, args⟩).successors, e.block < s₃.states.size :=
    fun e he => hc₃.linked.sizes ▸ (hfits.targets e he).1
  have hc₄ := hc₃.link hcur₃ hnone₃ hfits
  have hm₄ := Moves.link hcur₃ _ htargets
  have ho₄ := ho₃.moves hm₄ (by simp [hsame.cur]; omega) (by simp)
  have hof₄ := hof₃.moves hm₄ (by simp [hsame.cur]; omega) (by simp)
  -- the header has an edge now, so the code in it is live
  have hlive₄ : ((linkEdges s₃.cur (Terminator.br ⟨s.blocks.size, args⟩).successors.zipIdx
      s₃.states)[s.blocks.size]?.getD {}).preds.isEmpty = false := by
    rw [preds_isEmpty, predsAt_linkEdges _ _ _ (forall_mem_zipIdx htargets)]
    simp [Terminator.successors]
  cases h
  have hframes := congrArg (fun fs : Array Frame => fs.push
    { kind := .loop, params, results, base := s.stack.size - params.length, header := s.blocks.size,
      following := (s.blocks.push {}).size }) hsame.frames
  refine ⟨?_, hsame.deadDepth, _, hframes, rfl, rfl, rfl⟩
  refine hw.push hlive (hc₄.of_control rfl rfl rfl rfl rfl (hc₄.bounded.switchTo_below _ _ _)
    (hc₄.bounded.switchTo_spare_below _ _ _)
    (hc₄.bounded.elseArgs_push (by simp)))
    (((((Moves.newBlock s).trans (Moves.newBlock _)).trans hadd₂.moves).trans hadd₃.moves).trans
      hm₄ |>.of_control rfl rfl rfl (.inl rfl)) hframes hsame.results hsame.deadDepth
    (fun j hj => ?_) (fun j hj hj' => ?_) (fun j hj => ?_) (fun r hr hS => ?_) hstates₃.2
    ⟨(by rintro ⟨⟩), fun _ => ⟨hof₄.lt, hof₄.unsealed, hof₄.unended, hof₄.params⟩,
      fun _ => ⟨ho₄.lt, ho₄.unsealed, ho₄.params⟩, (by rintro ⟨⟩)⟩ (by rintro ⟨⟩) (by simp [Frame.blocks])
    (by simp [Frame.blocks]) (fun hcur => ?_) (fun _ => ⟨ho₄.lt, ho₄.unended, ?_⟩)
    (fun j hj hj' _ => ?_)
  · simp only [List.append_nil, List.nil_append, List.mem_singleton] at hj
    rw [hj, hsame.cur]
    exact hpend
  · simp [Terminator.successors] at hj
    omega
  · simp at hj
    rcases hj with rfl | rfl <;> exact hfresh _ (by simp)
  · have := (hw.coherent.linked.ret r hr).1
    simp at hS
    omega
  · rw [← hsame.cur] at hcur
    simpa using ((hm₄.term s₃.cur hcur₃).mp hcur).2
  · simp only [hsame.frames, pendingOf_push, List.mem_append, not_or, Frame.pending, List.mem_singleton]
    exact ⟨fun hp => hfresh _ (Nat.le_refl _) (mem_blocksOf_of_pending hp), by simp⟩
  · -- the new blocks are the header, now current, and the block after the loop
    have hj₄ : j < s.blocks.size + 2 := by
      rw [← hsize₃]
      simpa using hj'
    by_cases hjh : j = s.blocks.size
    · exact .inl ⟨hlive₄, hjh⟩
    · right; left
      simp only [Frame.pending, List.mem_singleton, Array.size_push]
      omega

/-- Entering an `if` ends the current block with a conditional branch to two new blocks, both
sealed at once: the then block, where code goes on, and the else block. The block after the
`if` has one parameter per result, and the frame keeps the operands the else branch starts
with. -/
theorem enter_if (hw : s.Wf) (hlive : s.unreachable = false) {op : UInt8} (hop₂ : op ≠ 0x02)
    (hop₃ : op ≠ 0x03) {params results : List ValType}
    (h : (enter op params results).run s = .ok ((), s')) :
    s'.Wf ∧ s'.deadDepth = s.deadDepth ∧ ∃ fr : Frame, s'.frames = s.frames.push fr ∧
      fr.kind = .ifNoElse ∧ fr.params = params ∧ fr.results = results := by
  simp only [enter, StateT.run_bind, get_run, ok_bind] at h
  split at h
  · cases h
  rename_i hunder
  split at h
  · -- no operand under the condition
    simp only [StateT.run_bind] at h
    obtain ⟨_, -, h⟩ := bind_eq_ok h
    cases h
  rename_i hbase
  simp only [StateT.run_bind] at h
  obtain ⟨⟨cond, s₀⟩, h₀, h⟩ := bind_eq_ok h
  obtain ⟨-, -, hs₀⟩ := pop_run s h₀
  -- from here on the lowering with the condition popped
  have hw₀ : s₀.Wf := hs₀ ▸ hw.popOperands hlive _
  have hcontrol₀ : s₀.frames = s.frames ∧ s₀.deadDepth = s.deadDepth ∧ s₀.unreachable = false ∧
      params.length ≤ s₀.stack.size := by
    subst hs₀
    refine ⟨rfl, rfl, hlive, ?_⟩
    simp only [Array.size_extract]
    omega
  obtain ⟨hframes₀, hdepth₀, hlive₀, hargs₀⟩ := hcontrol₀
  clear hs₀ h₀
  simp only [newBlock_run, ok_bind] at h
  obtain ⟨⟨_, s₂⟩, h₂, h⟩ := bind_eq_ok h
  simp only [dup_run, terminate_run, ok_bind] at h
  obtain ⟨⟨_, s₄⟩, h₄, h⟩ := bind_eq_ok h
  obtain ⟨⟨_, s₅⟩, h₅, h⟩ := bind_eq_ok h
  rw [modify_run] at h
  cases h
  have hsizes₀ := hw₀.coherent.linked.sizes
  obtain ⟨hlt₀, hnone₀, hpend₀⟩ := hw₀.reach hlive₀
  have hfresh : ∀ j, s₀.blocks.size ≤ j → j ∉ blocksOf s₀.frames :=
    fun j hj hb => Nat.lt_irrefl _ (Nat.lt_of_lt_of_le (hw₀.lt_of_mem_blocksOf hb) hj)
  -- the then and else blocks, and the block after the `if`, with one parameter per result
  have hot₁ := ((open_newBlock s₀ hsizes₀).moves (Moves.newBlock _) (by simp) (by simp)).moves
    (Moves.newBlock _) (by simp) (by simp)
  have hoe₁ := (open_newBlock { s₀ with blocks := s₀.blocks.push {}, states := s₀.states.push {} }
    (by simp [hsizes₀])).moves (Moves.newBlock _) (by simp) (by simp)
  have hof₁ := open_newBlock
    { s₀ with blocks := (s₀.blocks.push {}).push {}, states := (s₀.states.push {}).push {} }
    (by simp [hsizes₀])
  obtain ⟨hc₂, hadd₂⟩ := AddsParams.forIn_addParam hw₀.coherent.newBlock.newBlock.newBlock hof₁.lt
    (by simp [predsAt_of_le, hsizes₀]) h₂
  have hof₂ := hadd₂.open hof₁
  have hot₂ := hot₁.moves hadd₂.moves (by simp) (by simp; omega)
  have hoe₂ := hoe₁.moves hadd₂.moves (by simp) (by simp)
  have hsame₂ : SameControl s₀ s₂ := by
    have h := hadd₂.sameControl
    exact ⟨h.stack, h.spare, h.frames, h.cur, h.unreachable, h.deadDepth, h.results⟩
  have hsize₂ : s₂.blocks.size = s₀.blocks.size + 3 := by
    rw [hadd₂.size]
    simp
  -- the current block ends with the conditional branch
  have hcur₂ : s₂.cur < s₂.blocks.size := by
    rw [hsame₂.cur]
    omega
  have hnone₂ : termAt s₂.blocks s₂.cur = none := by
    rw [hadd₂.term, hsame₂.cur]
    simpa using hnone₀
  have hfits : s₂.Fits (.condBr (cond.headD 0) ⟨s₀.blocks.size, []⟩ ⟨(s₀.blocks.push {}).size, []⟩) := by
    refine ⟨fun e he => ?_, ⟨by simp, by simp [Terminator.successors]⟩, fun _ h => by cases h⟩
    simp only [Terminator.successors, List.mem_cons, List.not_mem_nil, or_false] at he
    rcases he with rfl | rfl
    · exact ⟨hot₂.lt, hot₂.params.symm⟩
    · exact ⟨hoe₂.lt, hoe₂.params.symm⟩
  have hc₃ := hc₂.link hcur₂ hnone₂ hfits
  have hm₃ := Moves.link hcur₂ _ fun e he => hc₂.linked.sizes ▸ (hfits.targets e he).1
  -- both blocks are sealed at once
  obtain ⟨hc₄, hg₄, -⟩ := Coherent.sealBlock
    (by exact hc₃.of_control rfl rfl rfl rfl rfl hc₂.bounded.stack hc₂.bounded.spare hc₂.bounded.elseArgs)
    (by simp; omega) h₄
  obtain ⟨hc₅, hg₅, -⟩ := hc₄.sealBlock (by rw [hg₄.blocks]; simp; omega) h₅
  have hm₅ := (hm₃.trans_control (Moves.of_grows hg₄) rfl rfl rfl rfl).trans (Moves.of_grows hg₅)
  have hsame₅ := (SameControl.of_grows hg₄).trans (SameControl.of_grows hg₅)
  have hret₅ : s₅.retBlock = s₀.retBlock := by
    rw [hg₅.retBlock_eq, hg₄.retBlock_eq]
    exact hadd₂.states.2
  have hsize₅ : s₅.blocks.size = s₀.blocks.size + 3 := by
    rw [hg₅.blocks, hg₄.blocks]
    simpa using hsize₂
  have hof₅ := hof₂.moves hm₅ (by simp [hsame₂.cur]; omega) (by simp; omega)
  have hot₅ : termAt s₅.blocks s₀.blocks.size = none :=
    ((hm₅.term _ hot₂.lt).mpr ⟨hot₂.unended, by simp [hsame₂.cur]; omega⟩)
  have hoe₅ : termAt s₅.blocks (s₀.blocks.push {}).size = none :=
    ((hm₅.term _ hoe₂.lt).mpr ⟨hoe₂.unended, by simp [hsame₂.cur]; omega⟩)
  have hframes₅ : s₅.frames = s₀.frames := hsame₅.frames.trans hsame₂.frames
  have hargs : (s₂.stack.extract (s₂.stack.size - params.length) s₂.stack.size).toList.length =
      params.length := length_top (by rw [hsame₂.stack]; exact hargs₀)
  refine ⟨?_, hsame₅.deadDepth.trans (hsame₂.deadDepth.trans hdepth₀), _,
    hframes₀ ▸ congrArg (fun fs : Array Frame => fs.push _) hframes₅, rfl, rfl, rfl⟩
  refine hw₀.push hlive₀ (hc₅.of_control rfl rfl rfl rfl rfl hc₅.bounded.stack hc₅.bounded.spare
    (hc₅.bounded.elseArgs_push fun v hv => Nat.lt_of_lt_of_le (hc₂.bounded.stack v (mem_of_mem_top hv)) hm₅.values))
    (((((Moves.newBlock s₀).trans (Moves.newBlock _)).trans (Moves.newBlock _)).trans
      hadd₂.moves).trans hm₅ |>.of_control rfl rfl rfl (.inl rfl)) (congrArg (fun fs : Array Frame => fs.push _) hframes₅)
    (hsame₅.results.trans hsame₂.results) (hsame₅.deadDepth.trans hsame₂.deadDepth)
    (fun j hj => ?_) (fun j hj hj' => ?_) (fun j hj => ?_) (fun r hr hS => ?_) hret₅
    ⟨(by rintro ⟨⟩), fun _ => ⟨hof₅.lt, hof₅.unsealed, hof₅.unended, hof₅.params⟩, (by rintro ⟨⟩),
      fun _ => ⟨?_, hoe₅, hargs⟩⟩ (by rintro ⟨⟩) (by simp [Frame.blocks]; omega)
    (by simp [Frame.blocks]) (fun hcur => ?_) (fun _ => ⟨?_, hot₅, ?_⟩) (fun j hj hj' _ => ?_)
  · simp at hj
    rw [hj, hsame₂.cur]
    exact hpend₀
  · simp [Terminator.successors] at hj
    omega
  · simp at hj
    rcases hj with rfl | rfl | rfl <;> exact hfresh _ (by omega)
  · have := (hw₀.coherent.linked.ret r hr).1
    simp at hS
    omega
  · show (s₀.blocks.push {}).size < s₅.blocks.size
    simp only [Array.size_push, hsize₅]
    omega
  · rw [← hsame₂.cur] at hcur
    simpa using ((hm₅.term s₂.cur hcur₂).mp hcur).2
  · show s₀.blocks.size < s₅.blocks.size
    omega
  · simp only [hframes₅, pendingOf_push, List.mem_append, not_or, Frame.pending, List.mem_cons,
      List.not_mem_nil, or_false]
    refine ⟨fun hp => hfresh _ (Nat.le_refl _) (mem_blocksOf_of_pending hp), ?_, ?_⟩ <;>
      simp only [Array.size_push] <;> omega
  · -- the new blocks are the then block, now current, the else block and the block after
    have hj₅ : j < s₀.blocks.size + 3 := by
      rw [← hsize₅]
      exact hj'
    by_cases hjt : j = s₀.blocks.size
    · exact .inl ⟨rfl, hjt⟩
    · right; left
      simp only [Frame.pending, List.mem_cons, List.not_mem_nil, or_false, Array.size_push]
      omega

/-- Entering a block, a loop or an `if` pushes one frame, of the kind the opcode names. -/
theorem enter (hw : s.Wf) (hlive : s.unreachable = false) {op : UInt8} {params results : List ValType}
    (h : (Lower.enter op params results).run s = .ok ((), s')) :
    s'.Wf ∧ s'.deadDepth = s.deadDepth ∧ ∃ fr : Frame, s'.frames = s.frames.push fr ∧
      fr.params = params ∧ fr.results = results ∧
      fr.kind = if op = 0x02 then .block else if op = 0x03 then .loop else .ifNoElse := by
  by_cases h₂ : op = 0x02
  · subst h₂
    obtain ⟨hw', hdepth, fr, hframes, hk, hp, hr⟩ := hw.enter_block hlive h
    exact ⟨hw', hdepth, fr, hframes, hp, hr, by simp [hk]⟩
  by_cases h₃ : op = 0x03
  · subst h₃
    obtain ⟨hw', hdepth, fr, hframes, hk, hp, hr⟩ := hw.enter_loop hlive h
    exact ⟨hw', hdepth, fr, hframes, hp, hr, by simp [hk]⟩
  obtain ⟨hw', hdepth, fr, hframes, hk, hp, hr⟩ := hw.enter_if hlive h₂ h₃ h
  exact ⟨hw', hdepth, fr, hframes, hp, hr, by simp [hk, h₂, h₃]⟩

/-! ## Leaving a frame -/

/-- The innermost frame keeps its promises, and names blocks no other frame names. -/
theorem top {fs : Array Frame} {f : Frame} (hw : s.Wf) (hfs : s.frames = fs.push f) :
    f.Ok s ∧ f.blocks.Nodup ∧ ∀ j ∈ f.blocks, j ∉ blocksOf fs := by
  have hnd := hw.distinct
  rw [hfs, blocksOf_push] at hnd
  exact ⟨hw.frames f (hfs ▸ Array.mem_push_self), hnd.of_append_right,
    fun j hj hfj => List.disjoint_of_nodup_append hnd hfj hj⟩

/-- Replacing the innermost frame `f` by frames `gs` that name only blocks `f` names keeps the
invariant, when no code is skipped, the steps end the current block of live code and no block
an outer frame has to end, add edges only into blocks ended or named by frames, seal no block an
outer frame names, make no block, and leave each block `f` has to end ended, current, to be ended
by `gs`, or without edges and not named by `gs`. -/
theorem closeTop {fs gs : Array Frame} {f : Frame} (hw : s.Wf) (hc : s'.Coherent)
    (hm : Moves E N S s s') (hfs : s.frames = fs.push f) (hframes : s'.frames = fs ++ gs)
    (hresults : s'.results = s.results) (hdepth : s'.deadDepth = 0) (hkf : f.kind ≠ .function)
    (hE : ∀ j ∈ E, j ∉ pendingOf fs) (hcurE : s.unreachable = false → s.cur ∈ E)
    (hN : ∀ j ∈ N, j < s.blocks.size → termAt s.blocks j = none → j ∈ blocksOf s.frames)
    (hS : ∀ j ∈ S, j ∉ blocksOf fs) (hSr : ∀ r, s.retBlock = some r → r ∉ S)
    (hret : s'.retBlock = s.retBlock) (hsize : s'.blocks.size = s.blocks.size)
    (hok : ∀ g ∈ gs, g.Ok s') (hkind : ∀ g ∈ gs, g.kind ≠ .function)
    (hsub : (blocksOf gs).Sublist f.blocks)
    (hreach : s'.unreachable = false →
      s'.cur < s'.blocks.size ∧ termAt s'.blocks s'.cur = none ∧ s'.cur ∉ pendingOf s'.frames)
    (hpending : ∀ j ∈ f.pending, termAt s'.blocks j = none →
      (s'.unreachable = false ∧ j = s'.cur) ∨ j ∈ pendingOf gs ∨
        (predsAt s'.states j = [] ∧ j ∉ blocksOf gs)) : s'.Wf := by
  have hblocks : blocksOf s.frames = blocksOf fs ++ f.blocks := by rw [hfs, blocksOf_push]
  have hsub' : (blocksOf s'.frames).Sublist (blocksOf s.frames) := by
    rw [hframes, blocksOf_append, hblocks]
    exact hsub.append_left _
  -- `f` is not the function's frame, so frames stay under it
  have hne : fs.size ≠ 0 := by
    have hb := hw.bottom fs.size (by simp [hfs])
    simp only [hfs, Array.getElem_push_eq] at hb
    exact fun h0 => hkf (hb.mpr h0)
  have hfsub := (hw.top hfs).2.2
  refine ⟨hc, Nat.lt_of_lt_of_le hw.entry hm.size, fun g hg => ?_, ?_, hw.distinct.sublist hsub',
    fun h0 => hw.entryFree (hsub'.subset h0), hreach, fun j hj hnone => ?_, fun hd => ?_,
    fun h0 => ?_, fun r hr => ?_, fun r hr hb => ?_⟩
  · rw [hframes, Array.mem_append] at hg
    rcases hg with hg | hg
    · have hg' : g ∈ s.frames := by
        rw [hfs]
        exact Array.mem_push_of_mem _ hg
      exact (hw.frames g hg').moves hm hresults
        (fun j hj hp => hE j hj (mem_pendingOf.mpr ⟨g, hg, hp⟩))
        (fun j hj hb => hS j hj (mem_blocksOf.mpr ⟨g, hg, hb⟩))
    · exact hok g hg
  · rw [hframes]
    intro i hi
    rw [Array.getElem_append]
    split
    · rename_i hlt
      have hb := hw.bottom i (by rw [hfs]; simp; omega)
      simp only [hfs, Array.getElem_push_lt hlt] at hb
      exact hb
    · exact ⟨fun hk => absurd hk (hkind _ (Array.getElem_mem _)), fun h0 => by omega⟩
  · have hold : j < s.blocks.size := hsize ▸ hj
    obtain ⟨hnone₀, hjE⟩ := (hm.term j hold).mp hnone
    rw [hframes, pendingOf_append, blocksOf_append]
    rcases hw.dangling j hold hnone₀ with ⟨hlive, rfl⟩ | hp | ⟨h0, hpreds, hfb⟩
    · exact absurd (hcurE hlive) hjE
    · rw [hfs, pendingOf_push, List.mem_append] at hp
      rcases hp with hp | hp
      · exact .inr (.inl (List.mem_append_left _ hp))
      · -- a block `f` had to end
        have h0 : j ≠ 0 := fun h0 => hw.entryFree (by rw [hblocks, ← h0]; simp [Frame.mem_blocks_of_pending hp])
        rcases hpending j hp hnone with h | h | ⟨hpreds, hgs⟩
        · exact .inl h
        · exact .inr (.inl (List.mem_append_right _ h))
        · exact .inr (.inr ⟨h0, hpreds, by simp [hgs, hfsub j (Frame.mem_blocks_of_pending hp)]⟩)
    · have hN' : j ∉ N := fun hn => hfb (hN j hn hold hnone₀)
      refine .inr (.inr ⟨h0, (hm.preds j hold hN').trans hpreds, fun hb => hfb ?_⟩)
      rw [← blocksOf_append, ← hframes] at hb
      exact hsub'.subset hb
  · rw [hdepth] at hd
    exact absurd hd (Nat.lt_irrefl 0)
  · rw [hframes, Array.size_append] at h0
    omega
  · obtain ⟨hr', hparams⟩ := hm.ret r (hret ▸ hr) (hSr r (hret ▸ hr))
    rw [hparams, hresults]
    exact hw.retParams r (hret ▸ hr)
  · exact hw.retFree r (hret ▸ hr) (hsub'.subset hb)

/-- `else` ends the then branch of an `if`, branching to the block after it when live, and goes
on in the else block with the operands the `if` kept for it; the frame becomes one with an
`else`. In skipped code it does nothing. -/
theorem elseBranch (hw : s.Wf) (h : elseBranch.run s = .ok ((), s')) :
    s'.Wf ∧ ((0 < s.deadDepth ∧ s' = s) ∨ (s.deadDepth = 0 ∧ s'.deadDepth = 0 ∧
      ∃ (fs : Array Frame) (f : Frame), s.frames = fs.push f ∧
        s'.frames = fs.push { f with kind := .ifElse })) := by
  simp only [Lower.elseBranch, StateT.run_bind, get_run, ok_bind] at h
  split at h
  · -- skipped code
    rename_i hskip
    rw [pure_run] at h
    cases h
    simp only [Bool.and_eq_true, decide_eq_true_eq] at hskip
    exact ⟨hw, .inl ⟨hskip.2, rfl⟩⟩
  rename_i hskip
  have hdepth : s.deadDepth = 0 := by
    cases hu : s.unreachable
    · exact hw.depth_eq hu
    · simpa [hu] using hskip
  cases hf : s.frames.back? with
  | none => simp only [hf] at h; cases h
  | some f =>
    simp only [hf] at h
    split at h
    · cases h
    rename_i hk
    have hk : f.kind = .ifNoElse := by simpa using hk
    obtain ⟨fs, hfs⟩ := Array.back?_eq_some_iff.mp hf
    obtain ⟨hok, hnd, hfree⟩ := hw.top hfs
    obtain ⟨hhlt, hhnone, -⟩ := hok.ifNoElse hk
    have hfol := hok.following (by simp [hk])
    have hblocks : f.blocks = [f.header, f.following] := by simp [Frame.blocks, hk]
    have hpend : f.pending = [f.header, f.following] := by simp [Frame.pending, hk]
    have hhf : f.header ≠ f.following := by
      rw [hblocks] at hnd
      simpa using hnd
    have hhfree : f.header ∉ pendingOf fs :=
      fun hp => hfree f.header (by simp [hblocks]) (mem_blocksOf_of_pending hp)
    have helse : ∀ v ∈ f.elseArgs.toArray, v < s.values.size := fun v hv =>
      hw.coherent.bounded.elseArgs f (hfs ▸ Array.mem_push_self) v (by simpa using hv)
    have hback : ∀ v ∈ s.backing, v < s.values.size :=
      backing_below hw.coherent.bounded.stack hw.coherent.bounded.spare
    have hframes : s.frames.pop.push { f with kind := .ifElse } = fs ++ #[{ f with kind := .ifElse }] := by
      rw [hfs, Array.pop_push, Array.push_eq_append]
    rw [StateT.run_bind, modify_run, ok_bind] at h
    split at h
    · -- live code: the then branch ends with a branch to the block after the `if`
      rename_i hlive
      have hlive : s.unreachable = false := by simpa using hlive
      obtain ⟨hlt, hnone, hpcur⟩ := hw.reach hlive
      simp only [StateT.run_bind] at h
      obtain ⟨⟨args, s₁⟩, h₁, h⟩ := bind_eq_ok h
      obtain ⟨hn, rfl, rfl⟩ := peek_run _ h₁
      simp only [terminate_run, ok_bind, modify_run] at h
      cases h
      have hcur : ∀ j ∈ f.pending, s.cur ≠ j := fun j hj hcj =>
        hpcur (hcj ▸ mem_pendingOf.mpr ⟨f, hfs ▸ Array.mem_push_self, hj⟩)
      have hfits : s.Fits (.br ⟨f.following,
          (s.stack.extract (s.stack.size - f.results.length) s.stack.size).toList⟩) := by
        refine ⟨fun e he => ?_, ⟨by simp, fun e he v hv => ?_⟩, fun _ h => by cases h⟩
        all_goals simp only [Terminator.successors, List.mem_singleton] at he
        all_goals subst he
        · exact ⟨hfol.lt, by rw [length_top hn, hfol.params]⟩
        · exact hw.top_below hv
      have hm₁ := Moves.link hlt _ fun e he => hw.coherent.linked.sizes ▸ (hfits.targets e he).1
      have hfol₁ := hfol.moves hm₁ (by simpa using (hcur _ (by simp [hpend])).symm) (by simp)
      refine ⟨hw.closeTop ((hw.coherent.link hlt hnone hfits).of_control rfl rfl rfl rfl rfl
          (resliced_below hback helse) (resliced_spare_below hback helse)
          fun g hg => ?_) (hm₁.of_control rfl rfl rfl (.inl rfl)) hfs hframes rfl hdepth (by simp [hk])
        (fun j hj => ?_) (fun _ => by simp) (fun j hj _ _ => ?_) (by simp) (by simp) rfl (by simp)
        (fun g hg => ?_) (fun g hg => ?_) (by simp [blocksOf, Frame.blocks, hk])
        (fun _ => ⟨by simpa using hhlt, ?_, ?_⟩) (fun j hj _ => ?_),
        .inr ⟨hdepth, hdepth, fs, f, hfs, by rw [hfs, Array.pop_push]⟩⟩
      · simp only [hfs, Array.pop_push, Array.mem_push] at hg
        rcases hg with hg | rfl
        · exact hw.coherent.bounded.elseArgs g (hfs ▸ Array.mem_push_of_mem _ hg)
        · exact hw.coherent.bounded.elseArgs f (hfs ▸ Array.mem_push_self)
      · simp only [List.mem_singleton] at hj
        subst hj
        exact fun hp => hpcur (by rw [hfs, pendingOf_push]; exact List.mem_append_left _ hp)
      · simp only [Terminator.successors, List.map_cons, List.map_nil, List.mem_singleton] at hj
        subst hj
        exact mem_blocksOf.mpr ⟨f, hfs ▸ Array.mem_push_self, by simp [hblocks]⟩
      · rw [Array.mem_singleton] at hg
        subst hg
        exact ⟨(by rintro ⟨⟩), fun _ => ⟨hfol₁.lt, hfol₁.unsealed, hfol₁.unended, hfol₁.params⟩, (by rintro ⟨⟩), (by rintro ⟨⟩)⟩
      · rw [Array.mem_singleton] at hg
        subst hg
        rintro ⟨⟩
      · exact (hm₁.term _ hhlt).mpr ⟨hhnone, by simpa using (hcur _ (by simp [hpend])).symm⟩
      · rw [hframes, pendingOf_append, List.mem_append, not_or]
        exact ⟨hhfree, by simp [pendingOf, Frame.pending, hhf]⟩
      · rw [hpend] at hj
        simp only [List.mem_cons, List.not_mem_nil, or_false] at hj
        rcases hj with rfl | rfl
        · exact .inl ⟨rfl, rfl⟩
        · exact .inr (.inl (by simp [pendingOf, Frame.pending]))
    · -- skipped code after a branch: only the frame and the current block change
      rename_i hdead
      have hdead : s.unreachable = true := by simpa using hdead
      rw [modify_run] at h
      cases h
      refine ⟨hw.closeTop (hw.coherent.of_control rfl rfl rfl rfl rfl (resliced_below hback helse)
          (resliced_spare_below hback helse) fun g hg => ?_)
          ((Moves.refl s).of_control rfl rfl rfl (.inl rfl)) hfs hframes rfl hdepth (by simp [hk])
          (by simp) (fun hu => by simp [hdead] at hu) (by simp) (by simp) (by simp) rfl rfl
          (fun g hg => ?_) (fun g hg => ?_) (by simp [blocksOf, Frame.blocks, hk])
          (fun _ => ⟨hhlt, hhnone, ?_⟩) (fun j hj _ => ?_),
        .inr ⟨hdepth, hdepth, fs, f, hfs, by rw [hfs, Array.pop_push]⟩⟩
      · simp only [hfs, Array.pop_push, Array.mem_push] at hg
        rcases hg with hg | rfl
        · exact hw.coherent.bounded.elseArgs g (hfs ▸ Array.mem_push_of_mem _ hg)
        · exact hw.coherent.bounded.elseArgs f (hfs ▸ Array.mem_push_self)
      · rw [Array.mem_singleton] at hg
        subst hg
        exact ⟨(by rintro ⟨⟩), fun _ => ⟨hfol.lt, hfol.unsealed, hfol.unended, hfol.params⟩, (by rintro ⟨⟩), (by rintro ⟨⟩)⟩
      · rw [Array.mem_singleton] at hg
        subst hg
        rintro ⟨⟩
      · rw [hframes, pendingOf_append, List.mem_append, not_or]
        exact ⟨hhfree, by simp [pendingOf, Frame.pending, hhf]⟩
      · rw [hpend] at hj
        simp only [List.mem_cons, List.not_mem_nil, or_false] at hj
        rcases hj with rfl | rfl
        · exact .inl ⟨rfl, rfl⟩
        · exact .inr (.inl (by simp [pendingOf, Frame.pending]))

end Wf

end Lowering

end WasmImage.Ssa
