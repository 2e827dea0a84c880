import WasmImage.Proofs.LowerFormed

/-!
# Lowering a whole body

The instructions that open and close frames keep `Lowering.Formed` too, so every run of the
lowering does:

* `Formed.push`, `Formed.pop`: a frame whose blocks are new is pushed, and a frame whose blocks
  are sealed is popped;
* `Formed.enter`, `Formed.elseBranch`, `Formed.endFrame`: entering a block, a loop or an `if`,
  its `else`, and the end of a frame;
* `Formed.instr`: every instruction, live or skipped, ends no block that has a terminator;
* `Formed.start`: the entry block, with the function's parameters and declared locals.
-/

namespace WasmImage.Ssa

open Wasm Lower

namespace Lowering

variable {s s' : Lowering} {ok : Operator → Prop}

/-- Resolving locals and sealing end no block. -/
theorem Grows.termAt_none {S : List Nat} (hg : Grows S s s') {j : Nat} (h : termAt s.blocks j = none) :
    termAt s'.blocks j = none := by
  have hj := hg.shape j
  rw [h] at hj
  exact Option.map_eq_none_iff.mp hj

/-- Adding parameters ends and seals nothing. -/
theorem AddsParams.advances {blk k : Nat} (h : AddsParams blk k s s') : Advances [] s s' :=
  Advances.of_same (Nat.le_of_eq h.size.symm) h.term (by rw [h.states.1]) h.sameControl.results

/-- Nothing is built before the first block. -/
theorem Built.empty (m : Module) (ps rs : List ValType) :
    ({ module := m, params := ps, results := rs } : Lowering).Built ok := by
  refine ⟨⟨rfl, fun e t h => by simp [edgeAt, termAt] at h, fun j e => ?_, fun j => ?_, fun r hr => by cases hr⟩,
    ⟨by simp, by simp, by simp, by simp, by simp, by simp⟩, ⟨⟨?_, ?_, ?_, ?_⟩, ?_, ⟨?_, ?_, ?_⟩⟩, ?_, ?_⟩
  all_goals simp [termAt, edgeAt, predsAt, pendingAt, paramAt, instsOf, sealedAt]

namespace Formed

/-- Pushing a frame whose blocks to end are new, not ended and distinct, after steps that end no
block a frame has to end and leave every new block sealed or collected by the frame. -/
theorem push {fr : Frame} {E : List Nat} (hf : s.Formed ok) (hb : s'.Built ok) (ha : Advances E s s')
    (hframes : s'.frames = s.frames.push fr) (hresults : s'.results = s.results)
    (hkind : fr.kind ≠ .function)
    (hfr : fr.header < s'.blocks.size ∧ fr.following < s'.blocks.size)
    (hE : ∀ j ∈ E, j ∉ pendingOf s.frames)
    (hfresh : ∀ j ∈ fr.pending, s.blocks.size ≤ j ∧ termAt s'.blocks j = none)
    (hnodup : fr.pending.Nodup) (hcur : s'.cur < s'.blocks.size)
    (hreach : s'.unreachable = false → termAt s'.blocks s'.cur = none ∧ s'.cur ∉ pendingOf s'.frames)
    (hnew : ∀ j, s.blocks.size ≤ j → j < s'.blocks.size → sealedAt s'.states j = false → j ∈ fr.joins) :
    s'.Formed ok := by
  refine hf.advance hb ha hcur (fun f hf' => ?_) (fun f hf' hk => ?_) hreach (fun j hj => ?_) ?_
    (fun j hj hold hunsealed => ?_)
  · rw [hframes] at hf'
    rcases Array.mem_push.mp hf' with hf' | rfl
    · obtain ⟨h₁, h₂⟩ := hf.frames f hf'
      exact ⟨Nat.lt_of_lt_of_le h₁ ha.size, Nat.lt_of_lt_of_le h₂ ha.size⟩
    · exact hfr
  · rw [hframes] at hf'
    rcases Array.mem_push.mp hf' with hf' | rfl
    · exact hresults ▸ hf.function f hf' hk
    · exact absurd hk hkind
  · rw [hframes, pendingOf_push, List.mem_append] at hj
    rcases hj with hj | hj
    · exact .inl ⟨hj, fun hm => hE j hm hj⟩
    · exact .inr (hfresh j hj)
  · rw [hframes, pendingOf_push]
    refine List.Nodup.append hf.distinct hnodup fun j hold hnew => ?_
    exact Nat.lt_irrefl _ (Nat.lt_of_lt_of_le (hf.lt_of_pending hold) (hfresh j hnew).1)
  · rw [hframes, joinsOf_push, List.mem_append]
    rcases hold with hold | hle
    · exact .inl hold
    · exact .inr (hnew j hle hj hunsealed)

/-- Popping the innermost frame `f`, once the blocks whose edges it collects are sealed, after
steps that end no block another frame has to end and leave every new block sealed. -/
theorem pop {f : Frame} {fs : Array Frame} {E : List Nat} (hf : s.Formed ok) (hb : s'.Built ok)
    (ha : Advances E s s') (hfs : s.frames = fs.push f) (hframes : s'.frames = fs)
    (hresults : s'.results = s.results) (hE : ∀ j ∈ E, j ∉ pendingOf fs) (hcur : s'.cur < s'.blocks.size)
    (hreach : s'.unreachable = false → termAt s'.blocks s'.cur = none ∧ s'.cur ∉ pendingOf fs)
    (hsealed : ∀ j ∈ f.joins, sealedAt s'.states j = true)
    (hnew : ∀ j, s.blocks.size ≤ j → j < s'.blocks.size → sealedAt s'.states j = true) :
    s'.Formed ok := by
  have hsub : ∀ g ∈ fs, g ∈ s.frames := fun g hg => hfs ▸ Array.mem_push_of_mem f hg
  have hdistinct : (pendingOf fs ++ f.pending).Nodup := by
    rw [← pendingOf_push, ← hfs]
    exact hf.distinct
  refine hf.advance hb ha hcur (fun g hg => ?_) (fun g hg hk => ?_) (fun hl => hframes ▸ hreach hl)
    (fun j hj => ?_) (hframes ▸ hdistinct.sublist (List.sublist_append_left _ _))
    (fun j hj hold hunsealed => ?_)
  · obtain ⟨h₁, h₂⟩ := hf.frames g (hsub g (hframes ▸ hg))
    exact ⟨Nat.lt_of_lt_of_le h₁ ha.size, Nat.lt_of_lt_of_le h₂ ha.size⟩
  · exact hresults ▸ hf.function g (hsub g (hframes ▸ hg)) hk
  · rw [hframes] at hj
    refine .inl ⟨?_, fun hm => hE j hm hj⟩
    rw [hfs, pendingOf_push]
    exact List.mem_append_left _ hj
  · rw [hframes]
    rcases hold with hold | hle
    · rw [hfs, joinsOf_push, List.mem_append] at hold
      rcases hold with hold | hjf
      · exact hold
      · rw [hsealed j hjf] at hunsealed
        cases hunsealed
    · rw [hnew j hle hj] at hunsealed
      cases hunsealed

/-- Entering a block makes the block it continues in, with one parameter per result, and pushes
its frame. -/
theorem enter_block (hf : s.Formed ok) (hlive : s.unreachable = false) {params results : List ValType}
    (h : (enter 0x02 params results).run s = .ok ((), s')) :
    s'.Formed ok ∧ ∃ E, Advances E s s' := by
  simp only [enter, StateT.run_bind, get_run, ok_bind] at h
  split at h
  · cases h
  simp only [StateT.run_bind, newBlock_run, ok_bind] at h
  obtain ⟨⟨_, s₁⟩, h₁, h⟩ := bind_eq_ok h
  rw [modify_run] at h
  cases h
  obtain ⟨hb₁, hadd⟩ := AddsParams.forIn_built hf.built.newBlock (by simp) h₁
  have ha := (Advances.newBlock s).trans hadd.advances
  obtain ⟨bs, vs, rfl⟩ := hadd.rest
  have hsize : bs.size = s.blocks.size + 1 := by simpa using hadd.size
  obtain ⟨hopen, hfree⟩ := hf.reach hlive
  have hcur := hf.cur
  have hterm : termAt bs = termAt s.blocks := by rw [hadd.term, termAt_push_empty]
  refine ⟨hf.push (hb₁.of_control rfl rfl rfl rfl rfl hb₁.bounded.stack hb₁.bounded.spare (hb₁.bounded.elseArgs_push (by simp)))
    (ha.congr_right rfl rfl rfl) rfl rfl (by rintro ⟨⟩) ⟨by simp; omega, by simp; omega⟩ (by simp) ?_
    (by simp [Frame.pending]) (by simp; omega) (fun _ => ⟨?_, ?_⟩) (fun j hj hj' _ => ?_),
    ⟨_, ha.congr_right rfl rfl rfl⟩⟩
  · intro j hj
    simp only [Frame.pending, List.mem_singleton] at hj
    subst hj
    exact ⟨Nat.le_refl _, by simp [hterm, termAt_of_le]⟩
  · simpa [hterm] using hopen
  · simp only [pendingOf_push, List.mem_append, not_or, Frame.pending, List.mem_singleton]
    exact ⟨hfree, by omega⟩
  · -- the only new block is the one the frame continues in
    simp only [Frame.joins, List.mem_singleton]
    simp only at hj'
    omega

/-- Entering a loop makes its header, with one parameter per loop parameter, and the block it
continues in, with one per result; it branches to the header and goes on there. -/
theorem enter_loop (hf : s.Formed ok) (hlive : s.unreachable = false) {params results : List ValType}
    (h : (enter 0x03 params results).run s = .ok ((), s')) :
    s'.Formed ok ∧ ∃ E, Advances E s s' := by
  simp only [enter, StateT.run_bind, get_run, ok_bind] at h
  split at h
  · cases h
  rename_i hunder
  simp only [StateT.run_bind, newBlock_run, ok_bind] at h
  obtain ⟨⟨_, s₂⟩, h₂, h⟩ := bind_eq_ok h
  obtain ⟨⟨_, s₃⟩, h₃, h⟩ := bind_eq_ok h
  simp only [dup_run, ok_bind] at h
  obtain ⟨⟨_, s₄⟩, h₄, h⟩ := bind_eq_ok h
  simp only [modify_run, switchTo_run, ok_bind] at h
  cases h
  obtain ⟨hopen, hfree⟩ := hf.reach hlive
  have hcur := hf.cur
  -- the header and the block after the loop, with their parameters
  obtain ⟨hb₂, hadd₂⟩ := AddsParams.forIn_built hf.built.newBlock.newBlock (by simp) h₂
  obtain ⟨hb₃, hadd₃⟩ := AddsParams.forIn_built hb₂ (by rw [hadd₂.size]; simp) h₃
  have hsame₃ : SameControl s s₃ := by
    have h := hadd₂.sameControl.trans hadd₃.sameControl
    exact ⟨h.stack, h.spare, h.frames, h.cur, h.unreachable, h.deadDepth, h.results⟩
  have hsize₃ : s₃.blocks.size = s.blocks.size + 2 := by
    rw [hadd₃.size, hadd₂.size]
    simp
  have hterm₃ : termAt s₃.blocks = termAt s.blocks := by
    rw [hadd₃.term, hadd₂.term]
    simp
  -- the branch to the header
  obtain ⟨hb₄, ha₄, rfl⟩ := hb₃.terminate (by rw [hsame₃.cur, hsize₃]; omega)
    (by rw [hterm₃, hsame₃.cur]; exact hopen)
    (by
      intro e he
      simp only [Terminator.successors, List.mem_singleton] at he
      subst he
      simp [hsize₃])
    (by
      refine ⟨fun _ hv => (by cases hv), fun e he v hv => ?_⟩
      simp only [Terminator.successors, List.mem_singleton] at he
      subst he
      exact hb₃.bounded.stack v (mem_of_mem_top hv))
    (fun _ hv => by cases hv) h₄
  have ha := ((((Advances.newBlock s).trans (Advances.newBlock _)).trans hadd₂.advances).trans
    hadd₃.advances).trans ha₄
  have hcur₃ : s₃.cur < s₃.blocks.size := by rw [hsame₃.cur, hsize₃]; omega
  -- the new blocks have no terminator
  have hnew : ∀ j, s.blocks.size ≤ j →
      termAt (s₃.blocks.modify s₃.cur fun b => { b with term := some (.br ⟨s.blocks.size,
        (s₃.stack.extract (s₃.stack.size - params.length) s₃.stack.size).toList⟩) }) j = none := by
    intro j hj
    rw [termAt_setTerm hcur₃, if_neg (by rw [hsame₃.cur]; omega), hterm₃, termAt_of_le hj]
  dsimp only
  rw [hsame₃.frames]
  refine ⟨hf.push (hb₄.of_control rfl rfl rfl rfl rfl (hb₄.bounded.switchTo_below _ _ _)
    (hb₄.bounded.switchTo_spare_below _ _ _) ?_)
    (ha.congr_right rfl rfl rfl) rfl hsame₃.results (by rintro ⟨⟩)
    ⟨by simp [hsize₃], by simp [hsize₃]⟩ (by simpa [hsame₃.cur] using hfree) ?_ (by simp [Frame.pending])
    (by simp [hsize₃]) (fun _ => ⟨hnew _ (Nat.le_refl _), ?_⟩) (fun j hj hj' _ => ?_), ⟨_, ha.congr_right rfl rfl rfl⟩⟩
  · intro f hf' v hv
    rcases Array.mem_push.mp hf' with hf' | rfl
    · exact hb₄.bounded.elseArgs f (hsame₃.frames ▸ hf') v hv
    · simp at hv
  · intro j hj
    simp only [Frame.pending, List.mem_singleton] at hj
    subst hj
    exact ⟨by simp, hnew _ (by simp)⟩
  · simp only [pendingOf_push, List.mem_append, not_or, Frame.pending, List.mem_singleton]
    exact ⟨fun hp => Nat.lt_irrefl _ (hf.lt_of_pending hp), by simp⟩
  · -- the new blocks are the header and the block after the loop
    simp only [Frame.joins, List.mem_cons, List.not_mem_nil, or_false, Array.size_push]
    simp only [Array.size_modify, hsize₃] at hj'
    omega

/-- Entering an `if` ends the current block with a conditional branch to two new blocks, both
sealed at once: the then block, where code goes on, and the else block, which the frame has to
end. The block after the `if` has one parameter per result. -/
theorem enter_if (hf : s.Formed ok) (hlive : s.unreachable = false) {op : UInt8} (hop₂ : op ≠ 0x02)
    (hop₃ : op ≠ 0x03) {params results : List ValType}
    (h : (enter op params results).run s = .ok ((), s')) :
    s'.Formed ok ∧ ∃ E, Advances E s s' := by
  simp only [enter, StateT.run_bind, get_run, ok_bind] at h
  split at h
  · cases h
  rename_i hunder
  split at h
  · -- no operand under the condition
    simp only [StateT.run_bind] at h
    obtain ⟨_, -, h⟩ := bind_eq_ok h
    cases h
  rename_i hbase
  simp only [StateT.run_bind] at h
  obtain ⟨⟨cond, s₀⟩, h₀, h⟩ := bind_eq_ok h
  obtain ⟨-, -, rfl⟩ := pop_run s h₀
  have hf₀ := hf.popOperands (s.stack.size - 1)
  simp only [newBlock_run, ok_bind] at h
  obtain ⟨⟨_, s₃⟩, h₃, h⟩ := bind_eq_ok h
  simp only [dup_run, ok_bind] at h
  obtain ⟨⟨_, s₄⟩, h₄, h⟩ := bind_eq_ok h
  obtain ⟨⟨_, s₅⟩, h₅, h⟩ := bind_eq_ok h
  obtain ⟨⟨_, s₆⟩, h₆, h⟩ := bind_eq_ok h
  rw [modify_run] at h
  cases h
  obtain ⟨hopen, hfree⟩ := hf.reach hlive
  have hcur := hf.cur
  -- the then and else blocks, and the block after the `if` with one parameter per result
  obtain ⟨hb₃, hadd₃⟩ := AddsParams.forIn_built hf₀.built.newBlock.newBlock.newBlock (by simp) h₃
  have hsame₃ := hadd₃.sameControl
  have hsize₃ : s₃.blocks.size = s.blocks.size + 3 := by
    rw [hadd₃.size]
    simp
  have hterm₃ : termAt s₃.blocks = termAt s.blocks := by
    rw [hadd₃.term]
    simp
  have hcur₃ : s₃.cur = s.cur := hsame₃.cur
  -- the current block branches to the then and else blocks
  obtain ⟨hb₄, ha₄, rfl⟩ := hb₃.terminate (by rw [hcur₃, hsize₃]; omega) (by rw [hterm₃, hcur₃]; exact hopen)
    (by
      intro e he
      simp only [Terminator.successors, List.mem_cons, List.not_mem_nil, or_false] at he
      rcases he with rfl | rfl <;> simp [hsize₃])
    (by
      refine ⟨fun _ hv => (by cases hv), fun e he v hv => ?_⟩
      simp only [Terminator.successors, List.mem_cons, List.not_mem_nil, or_false] at he
      rcases he with rfl | rfl <;> simp at hv)
    (fun _ hv => by cases hv) h₄
  obtain ⟨hb₅, hg₅, hsealed₅⟩ := hb₄.sealBlock (by simp [hsize₃]) h₅
  obtain ⟨hb₆, hg₆, hsealed₆⟩ := hb₅.sealBlock (by simp [hg₅.blocks, hsize₃]) h₆
  have hsame₆ := (SameControl.of_grows hg₅).trans (SameControl.of_grows hg₆)
  have hsize₆ : s₆.blocks.size = s.blocks.size + 3 := by simp [hg₆.blocks, hg₅.blocks, hsize₃]
  have hsealedT : sealedAt s₆.states s.blocks.size = true := by
    rw [hg₆.sealed _ (by simp)]
    exact hsealed₅
  have hsealedL : sealedAt s₆.states (s.blocks.size + 1) = true := by simpa using hsealed₆
  -- the new blocks have no terminator
  have hnew : ∀ j, s.blocks.size ≤ j → termAt s₆.blocks j = none := by
    intro j hj
    refine hg₆.termAt_none (hg₅.termAt_none ?_)
    rw [termAt_setTerm (by omega), if_neg (by omega), hterm₃, termAt_of_le hj]
  have ha := (((((((Advances.newBlock _).trans (Advances.newBlock _)).trans (Advances.newBlock _)).trans
    hadd₃.advances).trans ha₄).trans (Advances.of_grows hg₅ (by simpa using hsealed₅))).trans
    (Advances.of_grows hg₆ (by simpa using hsealed₆))).congr_left s rfl rfl rfl
  have hframes₆ : s₆.frames = s.frames := hsame₆.frames.trans hsame₃.frames
  dsimp only
  rw [hframes₆]
  refine ⟨hf.push (hb₆.of_control rfl rfl rfl rfl rfl hb₆.bounded.stack hb₆.bounded.spare ?_) (ha.congr_right rfl rfl rfl) rfl
    (hsame₆.results.trans hsame₃.results) (by rintro ⟨⟩) ⟨by simp [hsize₆], by simp [hsize₆]⟩
    (by simpa [hcur₃] using hfree) ?_ (by simp [Frame.pending]) (by simp [hsize₆])
    (fun _ => ⟨hnew _ (Nat.le_refl _), ?_⟩) (fun j hj hj' hunsealed => ?_), ⟨_, ha.congr_right rfl rfl rfl⟩⟩
  · intro f hf' v hv
    rcases Array.mem_push.mp hf' with hf' | rfl
    · exact hb₆.bounded.elseArgs f (hframes₆ ▸ hf') v hv
    · refine hb₆.bounded.stack v ?_
      rw [hsame₆.stack]
      exact mem_of_mem_top hv
  · intro j hj
    simp only [Frame.pending, List.mem_cons, List.not_mem_nil, or_false] at hj
    rcases hj with rfl | rfl <;> exact ⟨by simp only [Array.size_push]; omega,
      hnew _ (by simp only [Array.size_push]; omega)⟩
  · simp only [pendingOf_push, List.mem_append, not_or, Frame.pending, List.mem_cons,
      List.not_mem_nil, or_false, Array.size_push]
    exact ⟨fun hp => Nat.lt_irrefl _ (hf.lt_of_pending hp), by omega, by omega⟩
  · -- the then and else blocks are sealed, the block after the `if` is the frame's
    simp only [Frame.joins, List.mem_singleton, Array.size_push]
    simp only [hsize₆] at hj'
    by_cases hT : j = s.blocks.size
    · rw [hT, hsealedT] at hunsealed
      cases hunsealed
    by_cases hL : j = s.blocks.size + 1
    · rw [hL, hsealedL] at hunsealed
      cases hunsealed
    omega

/-- Entering a block, a loop or an `if` of live code. -/
theorem enter (hf : s.Formed ok) (hlive : s.unreachable = false) {op : UInt8} {params results : List ValType}
    (h : (Lower.enter op params results).run s = .ok ((), s')) :
    s'.Formed ok ∧ ∃ E, Advances E s s' := by
  by_cases h₂ : op = 0x02
  · subst h₂
    exact hf.enter_block hlive h
  by_cases h₃ : op = 0x03
  · subst h₃
    exact hf.enter_loop hlive h
  exact hf.enter_if hlive h₂ h₃ h

/-- Only the depth of skipped code changes. -/
theorem setDeadDepth (hf : s.Formed ok) (n : Nat) : ({ s with deadDepth := n } : Lowering).Formed ok :=
  ⟨hf.built.of_control rfl rfl rfl rfl rfl hf.built.bounded.stack hf.built.bounded.spare hf.built.bounded.elseArgs, hf.cur,
    hf.frames, hf.function, hf.reach, hf.pending, hf.distinct, hf.joins⟩

/-- After the then branch of an `if` without `else` so far, with its frame marked as having one:
code goes on, live, in the else block, with the operands under the `if` and those it kept for the
else branch. -/
theorem elseArm {fs : Array Frame} {f : Frame} {E : List Nat} {s₁ : Lowering} (hf : s.Formed ok)
    (hfs : s.frames = fs.push f) (hk : f.kind = .ifNoElse) (hb : s₁.Built ok) (ha : Advances E s s₁)
    (hE : ∀ j ∈ E, j ∉ pendingOf s.frames) (hframes : s₁.frames = fs.push { f with kind := .ifElse })
    (hresults : s₁.results = s.results) (hsize : s₁.blocks.size = s.blocks.size) :
    ({ s₁ with
        unreachable := false
        stack := s₁.backing.extract 0 f.base ++ f.elseArgs.toArray
        spare := appendSpare (s₁.backing.extract 0 f.base).size
          (s₁.backing.extract f.base s₁.backing.size) f.elseArgs.toArray
        cur := f.header } : Lowering).Formed ok := by
  have hpend : pendingOf s.frames = pendingOf fs ++ [f.header, f.following] := by
    rw [hfs, pendingOf_push]
    simp [Frame.pending, hk]
  have hnd := hf.distinct
  rw [hpend] at hnd
  have hheader : f.header ∉ pendingOf fs ∧ f.header ≠ f.following := by
    refine ⟨fun hp => List.disjoint_of_nodup_append hnd hp (by simp), ?_⟩
    simpa using hnd.of_append_right
  have hfr := hf.frames f (hfs ▸ Array.mem_push_self)
  have hpend' : pendingOf s₁.frames = pendingOf fs ++ [f.following] := by
    rw [hframes, pendingOf_push]
    simp [Frame.pending]
  refine hf.advance ?_ (ha.congr_right rfl rfl rfl) (by simp [hsize, hfr.1]) (fun g hg => ?_) (fun g hg hkg => ?_)
    (fun _ => ⟨?_, ?_⟩) (fun j hj => ?_) ?_ (fun j hj hold hunsealed => ?_)
  · have hback := backing_below hb.bounded.stack hb.bounded.spare
    have helse : ∀ v ∈ f.elseArgs.toArray, v < s₁.values.size := fun v hv =>
      hb.bounded.elseArgs _ (hframes ▸ Array.mem_push_self) v (by simpa using hv)
    exact hb.of_control rfl rfl rfl rfl rfl (resliced_below hback helse) (resliced_spare_below hback helse)
      hb.bounded.elseArgs
  · rw [hframes] at hg
    rcases Array.mem_push.mp hg with hg | rfl
    · obtain ⟨h₁, h₂⟩ := hf.frames g (hfs ▸ Array.mem_push_of_mem f hg)
      exact ⟨by simp [hsize]; exact h₁, by simp [hsize]; exact h₂⟩
    · exact ⟨by simp [hsize]; exact hfr.1, by simp [hsize]; exact hfr.2⟩
  · rw [hframes] at hg
    rcases Array.mem_push.mp hg with hg | rfl
    · exact hresults ▸ hf.function g (hfs ▸ Array.mem_push_of_mem f hg) hkg
    · cases hkg
  · -- the else block was one the frame had to end, and is not ended yet
    have hopen : termAt s.blocks f.header = none := hf.pending _ (by rw [hpend]; simp)
    exact ha.unended _ hfr.1 hopen fun hm => hE _ hm (by rw [hpend]; simp)
  · show f.header ∉ pendingOf s₁.frames
    rw [hpend']
    simpa using hheader
  · show _
    rw [hpend'] at hj
    refine .inl ⟨?_, fun hm => hE j hm ?_⟩ <;>
      · rw [hpend]
        rcases List.mem_append.mp hj with hj | hj
        · exact List.mem_append_left _ hj
        · simp at hj
          simp [hj]
  · show (pendingOf s₁.frames).Nodup
    rw [hpend']
    exact hnd.sublist (List.Sublist.append_left (by simp) _)
  · show j ∈ joinsOf s₁.frames
    rw [hframes, joinsOf_push]
    rcases hold with hold | hle
    · rw [hfs, joinsOf_push] at hold
      simpa [Frame.joins, hk] using hold
    · simp [hsize] at hj
      omega

/-- `else` ends the then branch of an `if`, branching to the block after it when live, and goes
on in the else block; in skipped code it does nothing. -/
theorem elseBranch (hf : s.Formed ok) (h : elseBranch.run s = .ok ((), s')) :
    s'.Formed ok ∧ ∃ E, Advances E s s' := by
  simp only [Lower.elseBranch, StateT.run_bind, get_run, ok_bind] at h
  split at h
  · -- skipped code
    rw [pure_run] at h
    cases h
    exact ⟨hf, _, .refl _⟩
  cases hfb : s.frames.back? with
  | none => simp only [hfb] at h; cases h
  | some f =>
    simp only [hfb] at h
    split at h
    · cases h
    rename_i hk
    have hk : f.kind = .ifNoElse := by simpa using hk
    obtain ⟨fs, hfs⟩ := Array.back?_eq_some_iff.mp hfb
    have hframes : s.frames.pop.push { f with kind := .ifElse } = fs.push { f with kind := .ifElse } := by
      rw [hfs, Array.pop_push]
    -- the frame marked as having an `else`, with the same blocks and operands
    have hb₁ : ({ s with frames := s.frames.pop.push { f with kind := .ifElse } } : Lowering).Built ok := by
      refine hf.built.of_control rfl rfl rfl rfl rfl hf.built.bounded.stack hf.built.bounded.spare fun g hg v hv => ?_
      rw [hframes] at hg
      rcases Array.mem_push.mp hg with hg | rfl
      · exact hf.built.bounded.elseArgs g (hfs ▸ Array.mem_push_of_mem f hg) v hv
      · exact hf.built.bounded.elseArgs f (hfs ▸ Array.mem_push_self) v hv
    rw [StateT.run_bind, modify_run, ok_bind] at h
    split at h
    · -- live code: the then branch ends with a branch to the block after the `if`
      rename_i hlive
      have hlive : s.unreachable = false := by simpa using hlive
      obtain ⟨hopen, hfree⟩ := hf.reach hlive
      have hfr := hf.frames f (hfs ▸ Array.mem_push_self)
      simp only [StateT.run_bind] at h
      obtain ⟨⟨args, s₁⟩, h₁, h⟩ := bind_eq_ok h
      obtain ⟨-, rfl, rfl⟩ := peek_run _ h₁
      obtain ⟨⟨_, s₂⟩, h₂, h⟩ := bind_eq_ok h
      rw [modify_run] at h
      cases h
      obtain ⟨hb₂, ha₂, rfl⟩ := hb₁.terminate hf.cur hopen
        (by
          intro e he
          simp only [Terminator.successors, List.mem_singleton] at he
          exact he ▸ hfr.2)
        (by
          refine ⟨fun _ hv => (by cases hv), fun e he v hv => ?_⟩
          simp only [Terminator.successors, List.mem_singleton] at he
          subst he
          exact hf.top_below hv)
        (fun _ hv => by cases hv) h₂
      have ha := ha₂.congr_left s rfl rfl rfl
      exact ⟨hf.elseArm hfs hk hb₂ ha (by simpa using hfree) hframes rfl (by simp), ⟨_, ha.congr_right rfl rfl rfl⟩⟩
    · -- after a branch: only the frame changes
      cases h
      exact ⟨hf.elseArm hfs hk hb₁ ((Advances.refl s).congr_right rfl rfl rfl) (by simp) hframes rfl rfl,
        ⟨_, (Advances.refl s).congr_right rfl rfl rfl⟩⟩

/-- Going on, at the end of the innermost frame `f`, in the block after it, once the blocks whose
edges `f` collects are sealed: the code there is live when some edge goes to it. -/
theorem resume {fs : Array Frame} {f : Frame} {E : List Nat} {s₅ : Lowering} (hf : s.Formed ok)
    (hfs : s.frames = fs.push f) (hkf : f.kind ≠ .function) (hb : s₅.Built ok) (ha : Advances E s s₅)
    (hE : ∀ j ∈ E, j ∉ pendingOf fs ∧ j ≠ f.following) (hframes : s₅.frames = fs)
    (hresults : s₅.results = s.results) (hsize : s₅.blocks.size = s.blocks.size)
    (hsealed : ∀ j ∈ f.joins, sealedAt s₅.states j = true)
    (h : (Lower.switchTo f.base f.following f.results.length).run s₅ = .ok ((), s')) :
    s'.Formed ok ∧ ∃ E, Advances E s s' := by
  rw [switchTo_run] at h
  cases h
  have hfr := hf.frames f (hfs ▸ Array.mem_push_self)
  have hmem : f.following ∈ f.pending := Frame.mem_pending.mpr (.inl ⟨hkf, rfl⟩)
  have hnd := hf.distinct
  rw [hfs, pendingOf_push] at hnd
  have hfree : f.following ∉ pendingOf fs := fun hp => List.disjoint_of_nodup_append hnd hp hmem
  have hopen : termAt s.blocks f.following = none :=
    hf.pending _ (by rw [hfs, pendingOf_push]; exact List.mem_append_right _ hmem)
  refine ⟨hf.pop (hb.of_control rfl rfl rfl rfl rfl (hb.bounded.switchTo_below _ _ _)
    (hb.bounded.switchTo_spare_below _ _ _) hb.bounded.elseArgs)
    (ha.congr_right rfl rfl rfl) hfs hframes hresults (fun j hj => (hE j hj).1) (by simp [hsize, hfr.2])
    (fun _ => ⟨ha.unended _ hfr.2 hopen fun hm => (hE _ hm).2 rfl, hfree⟩) hsealed
    (fun j hj hj' => by simp [hsize] at hj'; omega), ⟨_, ha.congr_right rfl rfl rfl⟩⟩

/-- The end of a frame other than the function's, once its branch to the block after it is made:
the else block of an `if` without `else` branches there with the operands the `if` kept, the
loop header and the block after the frame are sealed, and code goes on there. -/
theorem closeFrame {fs : Array Frame} {f : Frame} {E : List Nat} {s₂ : Lowering} (hf : s.Formed ok)
    (hfs : s.frames = fs.push f) (hkf : f.kind ≠ .function) (hb : s₂.Built ok) (ha : Advances E s s₂)
    (hE : ∀ j ∈ E, j ∉ pendingOf s.frames) (hframes : s₂.frames = fs) (hresults : s₂.results = s.results)
    (hvalues : s₂.values = s.values) (hsize : s₂.blocks.size = s.blocks.size)
    (h : (match f.kind with
      | .loop => do
        Lower.sealBlock f.header
        Lower.sealBlock f.following
        Lower.switchTo f.base f.following f.results.length
      | .ifNoElse => do
        modify fun s : Lowering => { s with cur := f.header }
        Lower.terminate (.br ⟨f.following, f.elseArgs⟩)
        Lower.sealBlock f.following
        Lower.switchTo f.base f.following f.results.length
      | _ => do
        Lower.sealBlock f.following
        Lower.switchTo f.base f.following f.results.length : LowerM Unit).run
        { s₂ with unreachable := false } = .ok ((), s')) :
    s'.Formed ok ∧ ∃ E, Advances E s s' := by
  have hfr := hf.frames f (hfs ▸ Array.mem_push_self)
  have hnd := hf.distinct
  rw [hfs, pendingOf_push] at hnd
  have hfol : f.following ∈ f.pending := Frame.mem_pending.mpr (.inl ⟨hkf, rfl⟩)
  -- the blocks ended so far are none a frame has to end
  have hE' : ∀ j ∈ E, j ∉ pendingOf fs ∧ j ≠ f.following := by
    intro j hj
    have hp := hE j hj
    rw [hfs, pendingOf_push, List.mem_append, not_or] at hp
    exact ⟨hp.1, fun h => hp.2 (h ▸ hfol)⟩
  have hb₃ : ({ s₂ with unreachable := false } : Lowering).Built ok :=
    hb.of_control rfl rfl rfl rfl rfl hb.bounded.stack hb.bounded.spare hb.bounded.elseArgs
  have hsize' : s₂.blocks.size = s.blocks.size := hsize
  split at h
  · -- a loop: its header is sealed too
    rename_i hk
    simp only [StateT.run_bind] at h
    obtain ⟨⟨_, s₄⟩, h₄, h⟩ := bind_eq_ok h
    obtain ⟨⟨_, s₅⟩, h₅, h⟩ := bind_eq_ok h
    obtain ⟨hb₄, hg₄, hsealed₄⟩ := hb₃.sealBlock (by simp [hsize']; exact hfr.1) h₄
    obtain ⟨hb₅, hg₅, hsealed₅⟩ := hb₄.sealBlock (by simp [hg₄.blocks, hsize']; exact hfr.2) h₅
    have ha₅ := Advances.of_grows hg₅ (by simpa using hsealed₅)
    refine hf.resume hfs hkf hb₅
      ((ha.trans ((Advances.of_grows hg₄ (by simpa using hsealed₄)).congr_left s₂ rfl rfl rfl)).trans ha₅)
      (by simpa using hE') ((SameControl.of_grows hg₅).frames.trans ((SameControl.of_grows hg₄).frames.trans hframes))
      ((SameControl.of_grows hg₅).results.trans ((SameControl.of_grows hg₄).results.trans hresults))
      (by simp [hg₅.blocks, hg₄.blocks, hsize']) (fun j hj => ?_) h
    simp only [Frame.joins, hk, List.mem_cons, List.not_mem_nil, or_false] at hj
    rcases hj with rfl | rfl
    · exact ha₅.sealed _ hsealed₄
    · exact hsealed₅
  · -- an `if` without `else`: the else block passes the operands the `if` kept
    rename_i hk
    have hpend : f.header ∈ f.pending := Frame.mem_pending.mpr (.inr ⟨hk, rfl⟩)
    have hhfree : f.header ∉ pendingOf fs := fun hp => List.disjoint_of_nodup_append hnd hp hpend
    have hhf : f.header ≠ f.following := by
      have := hnd.of_append_right
      simp [Frame.pending, hk] at this
      exact this
    have hopen : termAt s₂.blocks f.header = none :=
      ha.unended _ hfr.1 (hf.pending _ (by rw [hfs, pendingOf_push]; exact List.mem_append_right _ hpend))
        fun hm => hE _ hm (by rw [hfs, pendingOf_push]; exact List.mem_append_right _ hpend)
    simp only [StateT.run_bind, modify_run, ok_bind] at h
    obtain ⟨⟨_, s₄⟩, h₄, h₅₆⟩ := bind_eq_ok h
    obtain ⟨⟨_, s₅⟩, h₅, h₆⟩ := bind_eq_ok h₅₆
    have hb₃' : ({ s₂ with unreachable := false, cur := f.header } : Lowering).Built ok :=
      hb.of_control rfl rfl rfl rfl rfl hb.bounded.stack hb.bounded.spare hb.bounded.elseArgs
    obtain ⟨hb₄, ha₄, rfl⟩ := hb₃'.terminate (by simp [hsize']; exact hfr.1) hopen
      (by
        intro e he
        simp only [Terminator.successors, List.mem_singleton] at he
        subst he
        simp [hsize']
        exact hfr.2)
      (by
        refine ⟨fun _ hv => (by cases hv), fun e he v hv => ?_⟩
        simp only [Terminator.successors, List.mem_singleton] at he
        subst he
        exact hvalues ▸ hf.built.bounded.elseArgs f (hfs ▸ Array.mem_push_self) v hv)
      (fun _ hv => by cases hv) h₄
    obtain ⟨hb₅, hg₅, hsealed₅⟩ := hb₄.sealBlock (by simp [hsize']; exact hfr.2) h₅
    refine hf.resume hfs hkf hb₅
      ((ha.trans (ha₄.congr_left s₂ rfl rfl rfl)).trans (Advances.of_grows hg₅ (by simpa using hsealed₅)))
      (fun j hj => ?_) ((SameControl.of_grows hg₅).frames.trans hframes)
      ((SameControl.of_grows hg₅).results.trans hresults) (by simp [hg₅.blocks, hsize'])
      (fun j hj => ?_) h₆
    · simp only [List.mem_append, List.mem_singleton, List.not_mem_nil, or_false] at hj
      rcases hj with hj | rfl
      · exact hE' j hj
      · exact ⟨hhfree, hhf⟩
    · simp only [Frame.joins, hk, List.mem_singleton] at hj
      exact hj ▸ hsealed₅
  · -- any other frame: only the block after it
    rename_i hk₁ hk₂
    simp only [StateT.run_bind] at h
    obtain ⟨⟨_, s₅⟩, h₅, h⟩ := bind_eq_ok h
    obtain ⟨hb₅, hg₅, hsealed₅⟩ := hb₃.sealBlock (by simp [hsize']; exact hfr.2) h₅
    refine hf.resume hfs hkf hb₅ (ha.trans ((Advances.of_grows hg₅ (by simpa using hsealed₅)).congr_left s₂ rfl rfl rfl))
      (by simpa using hE') ((SameControl.of_grows hg₅).frames.trans hframes)
      ((SameControl.of_grows hg₅).results.trans hresults) (by simp [hg₅.blocks, hsize']) (fun j hj => ?_) h
    have hj' : j = f.following := by
      unfold Frame.joins at hj
      split at hj
      · exact absurd ‹f.kind = .function› hkf
      · exact absurd ‹f.kind = .loop› hk₁
      · simpa using hj
    exact hj' ▸ hsealed₅

theorem endFrame (hf : s.Formed ok) (h : endFrame.run s = .ok ((), s')) :
    s'.Formed ok ∧ ∃ E, Advances E s s' := by
  simp only [Lower.endFrame, StateT.run_bind, get_run, ok_bind] at h
  split at h
  · -- the end of a skipped frame
    simp only [StateT.run_bind, set_run, ok_bind, pure_run] at h
    cases h
    exact ⟨hf.setDeadDepth _, _, (Advances.refl s).congr_right rfl rfl rfl⟩
  cases hfb : s.frames.back? with
  | none => simp only [hfb] at h; cases h
  | some f =>
    simp only [hfb, StateT.run_bind, modify_run, ok_bind] at h
    obtain ⟨fs, hfs⟩ := Array.back?_eq_some_iff.mp hfb
    have hpop : s.frames.pop = fs := by rw [hfs, Array.pop_push]
    have hb₁ : ({ s with frames := s.frames.pop } : Lowering).Built ok := by
      refine hf.built.of_control rfl rfl rfl rfl rfl hf.built.bounded.stack hf.built.bounded.spare fun g hg v hv => ?_
      rw [hpop] at hg
      exact hf.built.bounded.elseArgs g (hfs ▸ Array.mem_push_of_mem f hg) v hv
    have hfree' : ∀ j, j ∉ pendingOf s.frames → j ∉ pendingOf fs := fun j hj hp =>
      hj (by rw [hfs, pendingOf_push]; exact List.mem_append_left _ hp)
    split at h
    · -- the function's end returns the values on top of the stack when live, and ends the code
      rename_i hkf
      have hres : f.results = s.results := hf.function f (hfs ▸ Array.mem_push_self) hkf
      have hjoins : ∀ j ∈ f.joins, sealedAt s.states j = true := by simp [Frame.joins, hkf]
      split at h
      · rename_i hlive
        have hlive : s.unreachable = false := by simpa using hlive
        obtain ⟨hopen, hfree⟩ := hf.reach hlive
        simp only [StateT.run_bind] at h
        obtain ⟨⟨vals, s₁⟩, h₁, h₂₃⟩ := bind_eq_ok h
        obtain ⟨hn, rfl, rfl⟩ := peek_run _ h₁
        obtain ⟨⟨_, s₂⟩, h₂, h₃⟩ := bind_eq_ok h₂₃
        simp only [modify_run, ok_bind, pure_run] at h₃
        cases h₃
        obtain ⟨hb₂, ha₂, rfl⟩ := hb₁.terminate hf.cur hopen (by simp [Terminator.successors])
          ⟨fun _ hv v hmem => by cases hv; exact hf.top_below hmem, by simp [Terminator.successors]⟩
          (fun _ hv => by cases hv; rw [length_top hn, hres]) h₂
        have ha := ha₂.congr_left s rfl rfl rfl
        exact ⟨hf.pop (hb₂.of_control rfl rfl rfl rfl rfl hb₂.bounded.stack hb₂.bounded.spare hb₂.bounded.elseArgs)
          (ha.congr_right rfl rfl rfl) hfs hpop rfl (by simpa using hfree' _ hfree) (by simpa using hf.cur)
          (fun h => by cases h) hjoins (fun j hj hj' => by simp at hj'; omega), ⟨_, ha⟩⟩
      · simp only [StateT.run_bind, modify_run, ok_bind, pure_run] at h
        cases h
        exact ⟨hf.pop (hb₁.of_control rfl rfl rfl rfl rfl hb₁.bounded.stack hb₁.bounded.spare hb₁.bounded.elseArgs)
          ((Advances.refl s).congr_right rfl rfl rfl) hfs hpop rfl (by simp) hf.cur (fun h => by cases h)
          hjoins (fun j hj hj' => by simp at hj'; omega), ⟨_, (Advances.refl s).congr_right rfl rfl rfl⟩⟩
    · rename_i hkf
      split at h
      · rename_i hlive
        have hlive : s.unreachable = false := by simpa using hlive
        obtain ⟨hopen, hfree⟩ := hf.reach hlive
        have hfr := hf.frames f (hfs ▸ Array.mem_push_self)
        simp only [StateT.run_bind] at h
        obtain ⟨⟨args, s₁⟩, h₁, h⟩ := bind_eq_ok h
        obtain ⟨-, rfl, rfl⟩ := peek_run _ h₁
        obtain ⟨⟨_, s₂⟩, h₂, h⟩ := bind_eq_ok h
        rw [modify_run, ok_bind] at h
        obtain ⟨hb₂, ha₂, rfl⟩ := hb₁.terminate hf.cur hopen
          (by
            intro e he
            simp only [Terminator.successors, List.mem_singleton] at he
            exact he ▸ hfr.2)
          (by
            refine ⟨fun _ hv => (by cases hv), fun e he v hv => ?_⟩
            simp only [Terminator.successors, List.mem_singleton] at he
            subst he
            exact hf.top_below hv)
          (fun _ hv => by cases hv) h₂
        exact hf.closeFrame hfs hkf hb₂ (ha₂.congr_left s rfl rfl rfl) (by simpa using hfree) hpop rfl rfl
          (by simp) h
      · rw [StateT.run_bind, modify_run, ok_bind] at h
        exact hf.closeFrame hfs hkf hb₁ ((Advances.refl s).congr_right rfl rfl rfl) (by simp) hpop rfl rfl rfl h

/-- The operand on top of a stack that has one is made. -/
theorem headD_top_below (hf : s.Formed ok) (hn : 1 ≤ s.stack.size) :
    (s.stack.extract (s.stack.size - 1) s.stack.size).toList.headD 0 < s.values.size := by
  cases htop : (s.stack.extract (s.stack.size - 1) s.stack.size).toList with
  | nil =>
    have hlen := congrArg List.length htop
    simp only [Array.length_toList, Array.size_extract, List.length_nil] at hlen
    omega
  | cons v _ => exact hf.top_below (htop ▸ List.mem_cons_self)

/-- A local of a block given a value already made. -/
theorem defineLocal (hf : s.Formed ok) (blk : Nat) (idx : UInt32) {v : Nat} (hv : v < s.values.size) :
    ({ s with states := s.states.modify blk fun st => { st with defs := st.defs.insert idx v } } :
      Lowering).Formed ok :=
  hf.grows (hf.built.defineLocal blk idx hv) (Grows.modifyState s blk fun _ => ⟨rfl, rfl⟩) (by simp)

/-- Ending the current block of live code by returning the values on top of the stack, one per
result. -/
theorem returnTop (hf : s.Formed ok) (hlive : s.unreachable = false)
    (h : (do let vals ← peek (← get).results.length; Lower.terminate (.ret vals) : LowerM Unit).run s =
      .ok ((), s')) :
    s'.Formed ok ∧ Advances [s.cur] s s' := by
  simp only [StateT.run_bind, get_run, ok_bind] at h
  obtain ⟨⟨vals, s₁⟩, h₁, h⟩ := bind_eq_ok h
  obtain ⟨hn, rfl, rfl⟩ := peek_run s h₁
  obtain ⟨hf', ha, -⟩ := hf.terminate hlive (fun e he => by cases he)
    ⟨fun vals hv v hmem => by cases hv; exact hf.top_below hmem, fun e he => by cases he⟩
    (fun vals hv => by cases hv; simp; omega) h
  exact ⟨hf', ha⟩

/-- Setting a local of the current block to the operand on top of the stack, which a `tee`
leaves in place. -/
theorem setLocal (hf : s.Formed ok) {idx : UInt32} (tee : Prop) [Decidable tee]
    (h : (do
      let args ← Lower.pop 1
      let v := args.headD 0
      Lower.defineLocal (← get).cur idx v
      if tee then Lower.push v : LowerM Unit).run s = .ok ((), s')) :
    s'.Formed ok ∧ ∃ E, Advances E s s' := by
  simp only [StateT.run_bind] at h
  obtain ⟨⟨args, s₁⟩, h₁, h⟩ := bind_eq_ok h
  obtain ⟨hn, rfl, rfl⟩ := pop_run s h₁
  have hv := hf.headD_top_below (by omega)
  have hf₁ := (hf.popOperands (s.stack.size - 1)).defineLocal s.cur idx hv
  simp only [get_run, ok_bind, Lower.defineLocal, modifyState_run] at h
  split at h
  · rw [push_run] at h
    cases h
    exact ⟨hf₁.pushOperand hv, _, Advances.of_same (Nat.le_refl _) rfl (sealedAt_modify fun _ => rfl) rfl⟩
  · rw [pure_run] at h
    cases h
    exact ⟨hf₁, _, Advances.of_same (Nat.le_refl _) rfl (sealedAt_modify fun _ => rfl) rfl⟩

/-- A tail call: the call runs as an operator, then its results on top of the stack are
returned. -/
theorem returnCall (hf : s.Formed ok) (hlive : s.unreachable = false) {op : UInt8} {imm : Option Imm}
    (hok : ok ⟨op, imm⟩)
    (h : (do Lower.operator op imm; let vals ← peek (← get).results.length; Lower.terminate (.ret vals) :
      LowerM Unit).run s = .ok ((), s')) :
    s'.Formed ok ∧ ∃ E, Advances E s s' := by
  rw [StateT.run_bind] at h
  obtain ⟨⟨⟨⟩, s₁⟩, h₁, h⟩ := bind_eq_ok h
  obtain ⟨hf₁, ha₁, hlive₁⟩ := hf.operator hok h₁
  obtain ⟨hf', ha⟩ := hf₁.returnTop (hlive₁.trans hlive) h
  exact ⟨hf', _, ha₁.trans ha⟩

theorem instr (hf : s.Formed ok) {ins : Instr}
    (hok : ok ⟨ins.op, ins.imm⟩ ∧ ok ⟨0x10, ins.imm⟩ ∧ ok ⟨0x11, ins.imm⟩)
    (h : (instr ins).run s = .ok ((), s')) : s'.Formed ok ∧ ∃ E, Advances E s s' := by
  have hcall : ∀ (c : Prop) [Decidable c], ok ⟨if c then 0x10 else 0x11, ins.imm⟩ := fun c _ => by
    split
    exacts [hok.2.1, hok.2.2]
  unfold Lower.instr at h
  split at h
  case h_4 => exact hf.elseBranch h
  case h_5 => exact hf.endFrame h
  case h_6 =>
    simp only [StateT.run_bind, get_run, ok_bind] at h
    split at h
    · rw [pure_run] at h
      cases h
      exact ⟨hf, _, .refl _⟩
    rename_i hlive
    have hlive : s.unreachable = false := by simpa using hlive
    split at h
    · -- nop
      rw [pure_run] at h
      cases h
      exact ⟨hf, _, .refl _⟩
    · -- unreachable
      obtain ⟨hf', ha, -⟩ := hf.terminate hlive (fun e he => by cases he)
        ⟨fun vals hv => (by cases hv), fun e he => (by cases he)⟩ (fun vals hv => by cases hv) h
      exact ⟨hf', ⟨_, ha⟩⟩
    · exact (hf.br hlive h).imp_right fun ha => ⟨_, ha⟩
    · exact (hf.brIf hlive h).imp_right fun ha => ⟨_, ha⟩
    · exact (hf.brTable hlive h).imp_right fun ha => ⟨_, ha⟩
    · exact (hf.returnTop hlive h).imp_right fun ha => ⟨_, ha⟩
    · -- drop
      obtain ⟨⟨l, s₁⟩, h₁, h⟩ := bind_eq_ok
        (show (Lower.pop 1).run s >>= (fun p => .ok ((), p.2)) = .ok ((), s') from h)
      obtain ⟨-, rfl, rfl⟩ := pop_run s h₁
      cases h
      exact ⟨hf.popOperands _, _, (Advances.refl s).congr_right rfl rfl rfl⟩
    · -- local.get
      simp only [StateT.run_bind, get_run, ok_bind] at h
      split at h
      · cases h
      simp only [StateT.run_bind, lookupFuel_run, get_run, ok_bind] at h
      obtain ⟨⟨v, s₁⟩, h₁, h⟩ := bind_eq_ok h
      obtain ⟨hf₁, ha, hsame, hv⟩ := hf.readLocal hlive h₁
      rw [push_run] at h
      cases h
      exact ⟨hf₁.pushOperand hv, ⟨_, ha.congr_right rfl rfl rfl⟩⟩
    · -- local.set
      simp only [StateT.run_bind, get_run, ok_bind] at h
      split at h
      · cases h
      exact hf.setLocal (ins.op = 34) h
    · -- local.tee
      simp only [StateT.run_bind, get_run, ok_bind] at h
      split at h
      · cases h
      exact hf.setLocal True h
    · -- return_call
      exact hf.returnCall hlive (hcall _) h
    · -- return_call_indirect
      exact hf.returnCall hlive (hcall _) h
    · -- every other operator
      exact (hf.operator hok.1 h).imp_right fun ha => ⟨_, ha.1⟩
  all_goals
    -- a block, a loop or an `if`: only counted in skipped code
    simp only [StateT.run_bind, get_run, ok_bind] at h
    split at h
    · rw [set_run] at h
      cases h
      exact ⟨hf.setDeadDepth _, _, (Advances.refl s).congr_right rfl rfl rfl⟩
    rename_i hlive
    have hlive : s.unreachable = false := by simpa using hlive
    split at h
    · exact hf.enter hlive h
    · cases h

/-- With no frames, every block sealed and the current block open. -/
theorem of_sealed (hb : s.Built ok) (hcur : s.cur < s.blocks.size) (hframes : s.frames = #[])
    (hopen : termAt s.blocks s.cur = none) (hsealed : ∀ j < s.blocks.size, sealedAt s.states j = true) :
    s.Formed ok :=
  ⟨hb, hcur, by simp [hframes], by simp [hframes], fun _ => ⟨hopen, by simp [hframes, pendingOf]⟩,
    by simp [hframes, pendingOf], by simp [hframes, pendingOf],
    fun j hj hj' => absurd (hsealed j hj) (by simp [hj'])⟩

/-- Only the types of the locals change. -/
theorem setLocalTypes (hf : s.Formed ok) (ts : Array ValType) :
    ({ s with localTypes := ts } : Lowering).Formed ok :=
  ⟨hf.built.of_control rfl rfl rfl rfl rfl hf.built.bounded.stack hf.built.bounded.spare hf.built.bounded.elseArgs, hf.cur,
    hf.frames, hf.function, hf.reach, hf.pending, hf.distinct, hf.joins⟩

/-- With every frame closed, every block is sealed. -/
theorem sealed_of_closed (hf : s.Formed ok) (hframes : s.frames = #[]) :
    ∀ j < s.blocks.size, sealedAt s.states j = true := fun j hj => by
  by_contra hj'
  simpa [hframes, joinsOf] using hf.joins j hj (by simpa using hj')

/-- The function's frame opened over no other. -/
theorem pushFunction (hf : s.Formed ok) (hframes : s.frames = #[]) :
    ({ s with frames := s.frames.push { kind := .function, results := s.results } } : Lowering).Formed ok := by
  have hsealed := hf.sealed_of_closed hframes
  refine ⟨hf.built.of_control rfl rfl rfl rfl rfl hf.built.bounded.stack hf.built.bounded.spare ?_, hf.cur, ?_, ?_,
    fun hl => ⟨(hf.reach hl).1, by simp [hframes, pendingOf, Frame.pending]⟩,
    by simp [hframes, pendingOf, Frame.pending], by simp [hframes, pendingOf, Frame.pending],
    fun j hj hj' => absurd (hsealed j hj) (by simp [hj'])⟩
  · simp [hframes]
  · simp only [hframes, List.push_toArray, List.nil_append, List.mem_toArray, List.mem_singleton]
    rintro f rfl
    exact ⟨Nat.lt_of_le_of_lt (Nat.zero_le _) hf.cur, Nat.lt_of_le_of_lt (Nat.zero_le _) hf.cur⟩
  · simp only [hframes, List.push_toArray, List.nil_append, List.mem_toArray, List.mem_singleton]
    rintro f rfl -
    rfl

/-- Setting up the entry block: it is made, sealed and given the function's parameters, the
declared locals are made zero in it, and the function's frame is opened over it. -/
theorem start (hzero : ∀ t z, zeroOperator t = some z → ok z) {m : Module} {ps rs : List ValType}
    {locals : List LocalGroup}
    (h : (Lower.start locals).run { module := m, params := ps, results := rs } = .ok ((), s)) :
    s.Formed ok ∧ s.results = rs := by
  simp only [Lower.start, StateT.run_bind, newBlock_run, ok_bind, modify_run, get_run] at h
  obtain ⟨⟨⟨⟩, s₁⟩, h₁, h⟩ := bind_eq_ok h
  -- the entry block, sealed
  have hb₀ : ({ module := m, params := ps, results := rs } : Lowering).Built ok := Built.empty m ps rs
  obtain ⟨hb₁, hg₁, hsealed₁⟩ := hb₀.newBlock.sealBlock (by simp) h₁
  have hsame₁ := SameControl.of_grows hg₁
  have hf₁ : s₁.Formed ok := by
    refine of_sealed hb₁ (by simp [hsame₁.cur, hg₁.blocks]) hsame₁.frames ?_ fun j hj => ?_
    · rw [hsame₁.cur]
      exact hg₁.termAt_none (by simp [termAt])
    · obtain rfl : j = 0 := by simpa [hg₁.blocks] using hj
      exact hsealed₁
  have hcur₁ : s₁.cur = 0 := hsame₁.cur
  -- the function's parameters become the entry block's parameters and the first locals
  obtain ⟨⟨⟨⟩, s₂⟩, h₂, h⟩ := bind_eq_ok h
  obtain ⟨hf₂, hsame₂⟩ : s₂.Formed ok ∧ SameControl s₁ s₂ := by
    refine forIn_run_invariant (fun _ _ t => t.Formed ok ∧ SameControl s₁ t) ?_ ⟨hf₁, .refl _⟩ h₂
    rintro pre ⟨ty, i⟩ rest b t r t' - ⟨hf, hsame⟩ hstep
    simp only [StateT.run_bind] at hstep
    obtain ⟨⟨v, t₁⟩, hp, hstep⟩ := bind_eq_ok hstep
    obtain ⟨hfp, -, hsamep, hv⟩ := hf.addParam (by simpa [hsame.cur, hcur₁] using hf.cur) hp
    simp only [Lower.defineLocal, modifyState_run, ok_bind, modify_run, pure_run] at hstep
    cases hstep
    exact ⟨_, rfl, (hfp.defineLocal _ _ hv).setLocalTypes _, hsame.trans ⟨hsamep.stack, hsamep.spare, hsamep.frames,
      hsamep.cur, hsamep.unreachable, hsamep.deadDepth, hsamep.results⟩⟩
  -- each declared local is made zero by an operator in the entry block
  obtain ⟨⟨⟨⟩, s₃⟩, h₃, h⟩ := bind_eq_ok h
  obtain ⟨hf₃, hsame₃⟩ : s₃.Formed ok ∧ SameControl s₁ s₃ := by
    refine forIn_run_invariant (fun _ _ t => t.Formed ok ∧ SameControl s₁ t) ?_ ⟨hf₂, hsame₂⟩ h₃
    rintro pre g rest b t r t' - ⟨hf, hsame⟩ hstep
    simp only [StateT.run_bind, get_run, ok_bind] at hstep
    split at hstep
    · cases hstep
    split at hstep
    · rename_i zero hz
      obtain ⟨⟨⟨⟩, t₄⟩, h₄, hstep⟩ := bind_eq_ok hstep
      cases hstep
      rw [Std.Legacy.Range.forIn_eq_forIn_range'] at h₄
      refine ⟨_, rfl, forIn_run_invariant (fun _ _ u => u.Formed ok ∧ SameControl s₁ u) ?_ ⟨hf, hsame⟩ h₄⟩
      rintro pre' k rest' b' u r' u' - ⟨hfu, hsameu⟩ hstep
      simp only [StateT.run_bind, get_run, modify_run, ok_bind] at hstep
      obtain ⟨⟨vs, u₁⟩, he, hstep⟩ := bind_eq_ok hstep
      obtain ⟨hfe, -, hsamee, hgrow, hvs⟩ := (hfu.setLocalTypes _).emit (by simp) (hzero _ _ hz) he
      simp only [Lower.defineLocal, modifyState_run, ok_bind, pure_run] at hstep
      cases hstep
      refine ⟨_, rfl, hfe.defineLocal _ _ ?_, hsameu.trans ⟨hsamee.stack, hsamee.spare, hsamee.frames, hsamee.cur,
        hsamee.unreachable, hsamee.deadDepth, hsamee.results⟩⟩
      cases vs with
      | nil => exact Nat.lt_of_le_of_lt (Nat.zero_le _) hgrow
      | cons v vs => exact hvs v List.mem_cons_self
    · cases hstep
  -- the function's frame
  cases h
  exact ⟨hf₃.pushFunction (hsame₃.frames.trans hsame₁.frames), hsame₃.results.trans hsame₁.results⟩

end Formed

end Lowering

end WasmImage.Ssa
