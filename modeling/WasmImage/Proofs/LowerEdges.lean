import WasmImage.Proofs.LowerLocals

/-!
# The edges of a lowering

A lowering is *coherent* when the body built so far would pass the check, but for blocks still
open: every edge is recorded in the block it goes to, every value named has been made, every
edge passes one argument per parameter of its target, and every return one value per result.
Each primitive step keeps it, given what it asks of its arguments: a terminator *fits* a
lowering when its targets exist and get one argument per parameter.

Steps also *move* the blocks in a few ways only, and `Moves` records which: the blocks a run of
steps ends, the blocks it adds edges into, and the blocks it seals. Of the blocks it leaves out,
it keeps whether they are ended, their edges, whether they are sealed, and, while they are not
sealed, their parameters.
-/

namespace WasmImage.Ssa

open Wasm Lower

namespace Lowering

/-- The body built so far is well formed, but for the blocks still open. -/
structure Coherent (s : Lowering) : Prop where
  linked : s.Linked
  bounded : s.Bounded
  arity : Arity s.blocks fun _ => 0
  rets : ∀ j vals, termAt s.blocks j = some (.ret vals) → vals.length = s.results.length

/-- A terminator that may end a block of `s`: its targets exist and get one argument per
parameter, the values it names are made, and a return carries one value per result. -/
structure Fits (s : Lowering) (t : Terminator) : Prop where
  targets : ∀ e ∈ t.successors, e.block < s.blocks.size ∧ e.args.length = paramCount s.blocks e.block
  below : t.Below s.values.size
  ret : ∀ vals, t = .ret vals → vals.length = s.results.length

/-- `s'` comes from `s` by steps that end only blocks among `ended`, add edges only into blocks
among `entered`, and seal only blocks among `sealing`; blocks and values are only added, and the
block that returns stays, with its parameters. -/
structure Moves (ended entered sealing : List Nat) (s s' : Lowering) : Prop where
  size : s.blocks.size ≤ s'.blocks.size
  values : s.values.size ≤ s'.values.size
  term : ∀ j < s.blocks.size, (termAt s'.blocks j = none ↔ termAt s.blocks j = none ∧ j ∉ ended)
  preds : ∀ j < s.blocks.size, j ∉ entered → predsAt s'.states j = predsAt s.states j
  sealed : ∀ j < s.blocks.size, j ∉ sealing → sealedAt s'.states j = sealedAt s.states j
  params : ∀ j < s.blocks.size, j ∉ sealing → sealedAt s.states j = false →
    paramCount s'.blocks j = paramCount s.blocks j
  ret : ∀ r, s.retBlock = some r → r ∉ sealing →
    s'.retBlock = some r ∧ paramCount s'.blocks r = paramCount s.blocks r

variable {s s' : Lowering}

/-! ## Updates that keep terminators -/

section Updates

variable {bs : Array Block} {i : Nat}

@[simp] theorem termAt_pushParam (v : Nat) :
    termAt (bs.modify i fun b => { b with params := b.params.push v }) = termAt bs :=
  termAt_modify fun _ => rfl

@[simp] theorem edgeAt_pushParam (v : Nat) :
    edgeAt (bs.modify i fun b => { b with params := b.params.push v }) = edgeAt bs :=
  edgeAt_modify fun _ => rfl

@[simp] theorem termAt_pushInst (v : Nat) :
    termAt (bs.modify i fun b => { b with insts := b.insts.push v }) = termAt bs :=
  termAt_modify fun _ => rfl

@[simp] theorem edgeAt_pushInst (v : Nat) :
    edgeAt (bs.modify i fun b => { b with insts := b.insts.push v }) = edgeAt bs :=
  edgeAt_modify fun _ => rfl

@[simp] theorem paramCount_pushInst (v : Nat) :
    paramCount (bs.modify i fun b => { b with insts := b.insts.push v }) = paramCount bs :=
  paramCount_modify fun _ => rfl

@[simp] theorem paramCount_setTerm (t : Option Terminator) :
    paramCount (bs.modify i fun b => { b with term := t }) = paramCount bs :=
  paramCount_modify fun _ => rfl

end Updates

/-! ## The edges of a new terminator -/

section Linking

variable {ts : List Target} {j i : Nat}

/-- The edges into block `i` that a terminator of block `j` with successors `ts` adds. -/
theorem mem_linked {e : PredEdge} :
    e ∈ ((ts.zipIdx.filter fun p => p.1.block == i).map fun p => (⟨j, p.2⟩ : PredEdge)) ↔
      e.src = j ∧ (ts[e.edge]?).map (·.block) = some i := by
  constructor
  · intro h
    simp only [List.mem_map, List.mem_filter, beq_iff_eq] at h
    obtain ⟨⟨tgt, k⟩, ⟨hmem, hblock⟩, rfl⟩ := h
    rw [List.mem_zipIdx_iff_getElem?] at hmem
    simp only at hmem hblock ⊢
    simp [hmem, hblock]
  · rintro ⟨hsrc, hedge⟩
    obtain ⟨tgt, htgt, hblock⟩ := Option.map_eq_some_iff.mp hedge
    simp only [List.mem_map, List.mem_filter, beq_iff_eq]
    refine ⟨(tgt, e.edge), ⟨List.mem_zipIdx_iff_getElem?.mpr htgt, hblock⟩, ?_⟩
    cases e
    simp_all

theorem nodup_linked :
    ((ts.zipIdx.filter fun p => p.1.block == i).map fun p => (⟨j, p.2⟩ : PredEdge)).Nodup := by
  have hedges : ((ts.zipIdx.filter fun p => p.1.block == i).map Prod.snd).Nodup := by
    refine List.Sublist.nodup (List.Sublist.map _ List.filter_sublist) ?_
    rw [List.zipIdx_map_snd]
    exact List.nodup_range'
  have hinj : Function.Injective (PredEdge.mk j) := fun a b hab => by cases hab; rfl
  simpa [List.map_map, Function.comp_def] using hedges.map hinj

theorem forall_mem_zipIdx {P : Target → Prop} (h : ∀ e ∈ ts, P e) : ∀ p ∈ ts.zipIdx, P p.1 := by
  intro p hp
  rw [List.mem_zipIdx_iff_getElem?] at hp
  exact h _ (List.mem_of_getElem? hp)

theorem linked_eq_nil (hi : i ∉ ts.map (·.block)) :
    ((ts.zipIdx.filter fun p => p.1.block == i).map fun p => (⟨j, p.2⟩ : PredEdge)) = [] := by
  rw [List.map_eq_nil_iff, List.filter_eq_nil_iff]
  rintro ⟨tgt, k⟩ hmem hblock
  rw [List.mem_zipIdx_iff_getElem?] at hmem
  simp only [beq_iff_eq] at hblock
  exact hi (List.mem_map.mpr ⟨tgt, List.mem_of_getElem? hmem, hblock⟩)

end Linking

/-! ## Runs of steps -/

namespace Moves

theorem refl (s : Lowering) : Moves [] [] [] s s :=
  ⟨Nat.le_refl _, Nat.le_refl _, fun _ _ => by simp, fun _ _ _ => rfl, fun _ _ _ => rfl,
    fun _ _ _ _ => rfl, fun _ hr _ => ⟨hr, rfl⟩⟩

theorem trans {E₁ N₁ S₁ E₂ N₂ S₂ : List Nat} {s₁ s₂ s₃ : Lowering} (h₁ : Moves E₁ N₁ S₁ s₁ s₂)
    (h₂ : Moves E₂ N₂ S₂ s₂ s₃) : Moves (E₁ ++ E₂) (N₁ ++ N₂) (S₁ ++ S₂) s₁ s₃ := by
  refine ⟨Nat.le_trans h₁.size h₂.size, Nat.le_trans h₁.values h₂.values, fun j hj => ?_,
    fun j hj hN => ?_, fun j hj hS => ?_, fun j hj hS hsealed => ?_, fun r hr hS => ?_⟩
  · have hj₂ : j < s₂.blocks.size := Nat.lt_of_lt_of_le hj h₁.size
    rw [h₂.term j hj₂, h₁.term j hj, List.mem_append, and_assoc, not_or]
  · rw [List.mem_append, not_or] at hN
    exact (h₂.preds j (Nat.lt_of_lt_of_le hj h₁.size) hN.2).trans (h₁.preds j hj hN.1)
  · rw [List.mem_append, not_or] at hS
    exact (h₂.sealed j (Nat.lt_of_lt_of_le hj h₁.size) hS.2).trans (h₁.sealed j hj hS.1)
  · rw [List.mem_append, not_or] at hS
    have hj₂ : j < s₂.blocks.size := Nat.lt_of_lt_of_le hj h₁.size
    have hsealed₂ : sealedAt s₂.states j = false := (h₁.sealed j hj hS.1).trans hsealed
    exact (h₂.params j hj₂ hS.2 hsealed₂).trans (h₁.params j hj hS.1 hsealed)
  · rw [List.mem_append, not_or] at hS
    obtain ⟨hr₂, hp₂⟩ := h₁.ret r hr hS.1
    obtain ⟨hr₃, hp₃⟩ := h₂.ret r hr₂ hS.2
    exact ⟨hr₃, hp₃.trans hp₂⟩

/-- Only the blocks that existed before matter, and among them the block that returns. -/
theorem mono {E N S E' N' S' : List Nat} (h : Moves E N S s s')
    (hE : ∀ j < s.blocks.size, (j ∈ E ↔ j ∈ E')) (hN : ∀ j < s.blocks.size, j ∈ N → j ∈ N')
    (hS : ∀ j < s.blocks.size, j ∈ S → j ∈ S') (hr : ∀ r, s.retBlock = some r → r ∈ S → r ∈ S') :
    Moves E' N' S' s s' := by
  refine ⟨h.size, h.values, fun j hj => ?_, fun j hj hN' => h.preds j hj fun hm => hN' (hN j hj hm),
    fun j hj hS' => h.sealed j hj fun hm => hS' (hS j hj hm),
    fun j hj hS' => h.params j hj fun hm => hS' (hS j hj hm),
    fun r hr' hS' => h.ret r hr' fun hm => hS' (hr r hr' hm)⟩
  rw [h.term j hj, hE j hj]

/-- Resolving locals and sealing blocks end no block and add no edge. -/
theorem of_grows {S : List Nat} (h : Grows S s s') : Moves [] [] S s s' := by
  have hret := h.ret
  refine ⟨h.blocks.ge, h.values, fun j _ => ?_, fun j _ _ => by rw [h.preds],
    fun j _ hS => h.sealed j hS, fun j _ hS hsealed => h.params j hsealed hS, fun r hr hS => ?_⟩
  · have hj := h.shape j
    cases h₁ : termAt s'.blocks j <;> cases h₂ : termAt s.blocks j <;> simp_all
  · obtain ⟨bs, vs, sts, rfl⟩ := h.rest
    exact ⟨hr, hret r hr hS⟩

/-- A step that changes no block, no edge, no sealing and not the block that returns. -/
theorem of_same (hterm : termAt s'.blocks = termAt s.blocks) (hpreds : predsAt s'.states = predsAt s.states)
    (hsealed : sealedAt s'.states = sealedAt s.states) (hparams : paramCount s'.blocks = paramCount s.blocks)
    (hsize : s.blocks.size ≤ s'.blocks.size) (hvalues : s.values.size ≤ s'.values.size)
    (hret : s'.retBlock = s.retBlock) : Moves [] [] [] s s' :=
  ⟨hsize, hvalues, fun j _ => by simp [hterm], fun j _ _ => by rw [hpreds],
    fun j _ _ => by rw [hsealed], fun j _ _ _ => by rw [hparams], fun r hr _ => ⟨hret ▸ hr, by rw [hparams]⟩⟩

/-- Only the blocks, values, block states and the block that returns matter, and the last only
once it is made. -/
theorem of_control {E N S : List Nat} {s₁ s₂ : Lowering} (h : Moves E N S s s₁)
    (hblocks : s₂.blocks = s₁.blocks) (hvalues : s₂.values = s₁.values)
    (hstates : s₂.states = s₁.states) (hret : s₂.retBlock = s₁.retBlock ∨ s.retBlock = none) :
    Moves E N S s s₂ := by
  obtain ⟨hsize, hvals, hterm, hpreds, hsealed, hparams, hr⟩ := h
  refine ⟨?_, ?_, ?_, ?_, ?_, ?_, fun r hr' hS => ?_⟩ <;> try simp only [hblocks, hvalues, hstates]
  all_goals try assumption
  rcases hret with hret | hret
  · rw [hret]
    exact hr r hr' hS
  · simp [hret] at hr'

/-- Runs of steps compose across a change of the control state alone. -/
theorem trans_control {E₁ N₁ S₁ E₂ N₂ S₂ : List Nat} {s₁ s₂ s₂' s₃ : Lowering}
    (h₁ : Moves E₁ N₁ S₁ s₁ s₂) (h₂ : Moves E₂ N₂ S₂ s₂' s₃) (hblocks : s₂'.blocks = s₂.blocks)
    (hvalues : s₂'.values = s₂.values) (hstates : s₂'.states = s₂.states)
    (hret : s₂'.retBlock = s₂.retBlock) : Moves (E₁ ++ E₂) (N₁ ++ N₂) (S₁ ++ S₂) s₁ s₃ :=
  (h₁.of_control hblocks hvalues hstates (.inl hret)).trans h₂

theorem newBlock (s : Lowering) :
    Moves [] [] [] s { s with blocks := s.blocks.push {}, states := s.states.push {} } :=
  of_same (by simp) (by simp) (by simp) (by simp) (by simp) (Nat.le_refl _) rfl

/-- A parameter added to block `blk`. -/
theorem addParam (s : Lowering) (blk : Nat) (d : ValueDef) :
    Moves [] [] [blk] s { s with
      values := s.values.push d
      blocks := s.blocks.modify blk fun b => { b with params := b.params.push s.values.size } } := by
  refine ⟨by simp, by simp, fun j _ => by simp, fun j _ _ => rfl, fun j _ _ => rfl,
    fun j _ hj _ => ?_, fun r hr hS => ⟨hr, ?_⟩⟩
  · exact paramCount_modify_ne fun h => hj (List.mem_singleton.mpr h.symm)
  · exact paramCount_modify_ne fun h => hS (List.mem_singleton.mpr h.symm)

/-- Ending block `j` and recording the edges of its terminator. -/
theorem link {j : Nat} (hj : j < s.blocks.size) (t : Terminator)
    (htargets : ∀ e ∈ t.successors, e.block < s.states.size) :
    Moves [j] (t.successors.map (·.block)) [] s
      { s with
        blocks := s.blocks.modify j fun b => { b with term := some t }
        states := linkEdges j t.successors.zipIdx s.states } := by
  refine ⟨by simp, Nat.le_refl _, fun i _ => ?_, fun i _ hi => ?_, fun i _ _ => ?_,
    fun i _ _ _ => ?_, fun r hr _ => ⟨hr, by simp only [paramCount_setTerm]⟩⟩
  · simp only [termAt_setTerm hj, List.mem_singleton]
    by_cases hji : j = i
    · simp [hji]
    · simp [hji, Ne.symm hji]
  · simp only
    rw [predsAt_linkEdges j _ _ (forall_mem_zipIdx htargets), linked_eq_nil hi, List.append_nil]
  · simp only [sealedAt_linkEdges]
  · simp only [paramCount_setTerm]

end Moves

/-! ## Coherence -/

namespace Coherent

/-- Changing only the operand stack and the control state keeps a lowering coherent, when the
values on the new stack and in the new frames are made. -/
theorem of_control (hc : s.Coherent) (hblocks : s'.blocks = s.blocks) (hvalues : s'.values = s.values)
    (hstates : s'.states = s.states) (hresults : s'.results = s.results) (hret : s'.retBlock = s.retBlock)
    (hstack : ∀ v ∈ s'.stack, v < s.values.size) (hspare : ∀ v ∈ s'.spare, v < s.values.size)
    (helse : ∀ f ∈ s'.frames, ∀ v ∈ f.elseArgs, v < s.values.size) : s'.Coherent := by
  obtain ⟨⟨hsizes, htargets, hpreds, hnodup, hret'⟩, ⟨-, -, -, hbs, hsts, hops⟩, ha, hrets⟩ := hc
  refine ⟨⟨?_, ?_, ?_, ?_, ?_⟩, ⟨?_, ?_, ?_, ?_, ?_, ?_⟩, ?_, ?_⟩ <;>
    simp only [hblocks, hvalues, hstates, hresults, hret] <;> assumption

theorem newBlock (hc : s.Coherent) :
    ({ s with blocks := s.blocks.push {}, states := s.states.push {} } : Lowering).Coherent := by
  obtain ⟨⟨hsizes, htargets, hpreds, hnodup, hret⟩, hb, ha, hrets⟩ := hc
  refine ⟨⟨by simp [hsizes], fun e t he => ?_, by simpa using hpreds, by simpa using hnodup,
    fun r hr => ?_⟩, ⟨hb.stack, hb.spare, hb.elseArgs, fun b hb' => ?_, fun st hst => ?_, hb.operands⟩,
    by simpa [Arity] using ha, by simpa using hrets⟩
  · simp only [edgeAt_push_empty] at he
    simpa using Nat.lt_succ_of_lt (htargets e t he)
  · obtain ⟨hr, vals, hvals⟩ := hret r hr
    exact ⟨by simpa using Nat.lt_succ_of_lt hr, vals, by simpa using hvals⟩
  · rcases Array.mem_push.mp hb' with hb' | rfl
    · exact hb.blocks _ hb'
    · exact ⟨by simp, by simp, by simp⟩
  · rcases Array.mem_push.mp hst with hst | rfl
    · exact hb.states _ hst
    · exact ⟨by simp, by simp⟩

/-- A parameter added to a block no edge goes to yet. -/
theorem addParam (hc : s.Coherent) {blk : Nat} (hblk : blk < s.blocks.size)
    (hfree : predsAt s.states blk = []) {t : ValType} {v : Nat} (h : (addParam blk t).run s = .ok (v, s')) :
    s'.Coherent ∧ v < s'.values.size := by
  rw [addParam_run] at h
  cases h
  have hlinked : s.Linked := hc.linked
  refine ⟨⟨⟨?_, ?_, ?_, ?_, ?_⟩, ?_, ?_, ?_⟩, by simp⟩
  · simpa using hlinked.sizes
  · intro e t he
    simp only [edgeAt_pushParam] at he
    simpa using hlinked.targets e t he
  · intro j e
    simpa using hlinked.preds j e
  · exact hlinked.nodup
  · intro r hr
    obtain ⟨hr, vals, hvals⟩ := hlinked.ret r hr
    exact ⟨by simpa using hr, vals, by simpa using hvals⟩
  · refine (hc.bounded.pushValue _ (by simp [ValueDef.operands])).modifyBlock blk ?_
    intro b hbelow
    refine ⟨fun w hw => ?_, hbelow.2.1, hbelow.2.2⟩
    rcases Array.mem_push.mp hw with hw | rfl
    · exact hbelow.1 w hw
    · simp
  · have ha := arity_pushParam hlinked hc.arity hblk s.values.size
    simpa [hfree] using ha
  · intro j vals hj
    simp only [termAt_pushParam] at hj
    exact hc.rets j vals hj

/-- The operator value and its picks, emitted into the current block. -/
theorem emit (hc : s.Coherent) {o : Operator} {args : List Nat} {results : List ValType}
    (hargs : ∀ v ∈ args, v < s.values.size) {vs : List Nat} (h : (emit o args results).run s = .ok (vs, s')) :
    s'.Coherent ∧ Moves [] [] [] s s' ∧ ∀ v ∈ vs, v < s'.values.size := by
  obtain ⟨picks, hpicks, rfl, hvs⟩ := emit_run s h
  have hle : s.values.size < (s.values.push (.operator o args results) ++ picks).size := by
    simp only [Array.size_append, Array.size_push]
    omega
  have hlinked : s.Linked := hc.linked
  have hb : s.Bounded := hc.bounded
  refine ⟨⟨⟨?_, ?_, ?_, hlinked.nodup, ?_⟩, ⟨?_, ?_, ?_, ?_, ?_, ?_⟩, ?_, ?_⟩,
    Moves.of_same (termAt_pushInst _) rfl rfl (paramCount_pushInst _) (by simp) hle.le rfl, hvs⟩
  · simpa using hlinked.sizes
  · intro e t he
    simp only [edgeAt_pushInst] at he
    simpa using hlinked.targets e t he
  · intro j e
    simpa using hlinked.preds j e
  · intro r hr
    obtain ⟨hr, vals, hvals⟩ := hlinked.ret r hr
    exact ⟨by simpa using hr, vals, by simpa using hvals⟩
  · exact fun v hv => Nat.lt_trans (hb.stack v hv) hle
  · exact fun v hv => Nat.lt_trans (hb.spare v hv) hle
  · exact fun f hf v hv => Nat.lt_trans (hb.elseArgs f hf v hv) hle
  · dsimp only
    refine forall_mem_modify (fun b hb' => (hb.blocks b hb').mono hle.le) ?_ s.cur
    intro b hbelow
    refine ⟨hbelow.1, fun w hw => ?_, hbelow.2.2⟩
    rcases Array.mem_push.mp hw with hw | rfl
    · exact hbelow.2.1 w hw
    · exact hle
  · exact fun st hst => (hb.states st hst).mono hle.le
  · intro d hd v hv
    rcases Array.mem_append.mp hd with hd | hd
    · rcases Array.mem_push.mp hd with hd | rfl
      · exact Nat.lt_trans (hb.operands d hd v hv) hle
      · exact Nat.lt_trans (hargs v hv) hle
    · simp [hpicks d hd] at hv
  · intro e t he
    simp only [edgeAt_pushInst, paramCount_pushInst] at he ⊢
    exact hc.arity e t he
  · intro j vals hj
    simp only [termAt_pushInst] at hj
    exact hc.rets j vals hj

/-- A local of a block given a value already made. -/
theorem defineLocal (hc : s.Coherent) (blk : Nat) (idx : UInt32) {v : Nat} (hv : v < s.values.size)
    {s' : Lowering} (h : (defineLocal blk idx v).run s = .ok ((), s')) :
    s'.Coherent ∧ Moves [] [] [] s s' := by
  rw [defineLocal_run] at h
  cases h
  have hg := Grows.modifyState s blk (f := fun st => { st with defs := st.defs.insert idx v })
    fun _ => ⟨rfl, rfl⟩
  refine ⟨⟨hc.linked.grows hg, hc.bounded.modifyState blk fun st hst => BlockState.Below.define hst idx hv,
    hc.arity, hc.rets⟩, (Moves.of_grows hg).mono (fun _ _ => Iff.rfl) (fun _ _ => id) (by simp) (by simp)⟩

/-- Resolving locals keeps a lowering coherent once the values it makes are accounted for. -/
theorem grows {S : List Nat} (hc : s.Coherent) (hg : Grows S s s') (hb : s'.Bounded)
    (ha : Arity s'.blocks fun _ => 0) : s'.Coherent := by
  refine ⟨hc.linked.grows hg, hb, ha, fun j vals hj => ?_⟩
  have hshape := hg.shape j
  obtain ⟨bs, vs, sts, rfl⟩ := hg.rest
  rw [hj] at hshape
  obtain ⟨t, ht, hshape⟩ := Option.map_eq_some_iff.mp hshape.symm
  rw [Terminator.shape_eq_ret.mp (hshape.trans rfl)] at ht
  exact hc.rets j vals ht

theorem readLocal (hc : s.Coherent) {fuel blk : Nat} {idx : UInt32} {v : Nat}
    (hblk : blk < s.blocks.size) (hret : s.retBlock ≠ some blk)
    (h : (readLocal fuel blk idx).run s = .ok (v, s')) :
    s'.Coherent ∧ Grows [] s s' ∧ v < s'.values.size := by
  obtain ⟨hg, hb, ha, hv⟩ :=
    (resolves fuel).1 blk idx s v s' _ hc.linked hc.bounded hc.arity hblk hret h
  exact ⟨hc.grows hg hb ha, hg, hv⟩

theorem sealBlock (hc : s.Coherent) {blk : Nat} (hblk : blk < s.blocks.size)
    (h : (sealBlock blk).run s = .ok ((), s')) :
    s'.Coherent ∧ Grows [blk] s s' ∧ sealedAt s'.states blk = true := by
  obtain ⟨hg, hb, ha, hsealed⟩ := sealBlock_grows hc.linked hc.bounded hc.arity hblk h
  exact ⟨hc.grows hg hb ha, hg, hsealed⟩

/-- Ending block `j`, not ended so far, with a terminator that fits, and recording its edges. -/
theorem link (hc : s.Coherent) {j : Nat} (hj : j < s.blocks.size) (hopen : termAt s.blocks j = none)
    {t : Terminator} (ht : s.Fits t) :
    ({ s with
        blocks := s.blocks.modify j fun b => { b with term := some t }
        states := linkEdges j t.successors.zipIdx s.states } : Lowering).Coherent := by
  have hl : s.Linked := hc.linked
  have hb : s.Bounded := hc.bounded
  have htargets : ∀ p ∈ t.successors.zipIdx, p.1.block < s.states.size :=
    forall_mem_zipIdx fun e he => hl.sizes ▸ (ht.targets e he).1
  -- no edge leaves block `j` before it is ended
  have hnone : ∀ e : PredEdge, e.src = j → edgeAt s.blocks e = none := by
    intro e he
    simp [edgeAt, he, hopen]
  refine ⟨⟨?_, fun e tgt he => ?_, fun i e => ?_, fun i => ?_, fun r hr => ?_⟩,
    ⟨hb.stack, hb.spare, hb.elseArgs, ?_, ?_, hb.operands⟩, fun e tgt he => ?_, fun i vals hi => ?_⟩
  · simp [size_linkEdges, hl.sizes]
  · simp only [edgeAt_setTerm hj] at he
    split at he
    · simpa using (ht.targets tgt (List.mem_of_getElem? he)).1
    · simpa using hl.targets e tgt he
  · simp only [predsAt_linkEdges j _ _ htargets, edgeAt_setTerm hj, List.mem_append, mem_linked]
    by_cases he : e.src = j
    · have hold : e ∉ predsAt s.states i := fun hmem => by
        simpa [hnone e he] using (hl.preds i e).mp hmem
      simp [he, hold]
    · simp [he, hl.preds i e]
  · simp only [predsAt_linkEdges j _ _ htargets]
    refine List.Nodup.append (hl.nodup i) nodup_linked fun e hold hnew => ?_
    have hsrc := (mem_linked.mp hnew).1
    simpa [hnone e hsrc] using (hl.preds i e).mp hold
  · obtain ⟨hr, vals, hvals⟩ := hl.ret r hr
    have hne : j ≠ r := fun h => by
      rw [← h, hopen] at hvals
      cases hvals
    exact ⟨by simpa using hr, vals, by simp [termAt_setTerm hj, hne, hvals]⟩
  · have hf : ∀ b : Block, b.Below s.values.size →
        ({ b with term := some t } : Block).Below s.values.size := by
      intro b hbelow
      refine ⟨hbelow.1, hbelow.2.1, fun t' ht' => ?_⟩
      cases ht'
      exact ht.below
    exact forall_mem_modify hb.blocks hf j
  · exact forall_mem_linkEdges j (fun _ _ hst => hst) _ _ hb.states
  · simp only [edgeAt_setTerm hj, paramCount_setTerm] at he ⊢
    split at he
    · exact (by simpa using (ht.targets tgt (List.mem_of_getElem? he)).2)
    · exact hc.arity e tgt he
  · simp only [termAt_setTerm hj] at hi
    split at hi
    · exact ht.ret vals (Option.some.inj hi)
    · exact hc.rets i vals hi

/-- The block that returns, once made and ended with a return. -/
theorem setRet (hc : s.Coherent) {r : Nat} (hr : r < s.blocks.size) {vals : List Nat}
    (hvals : termAt s.blocks r = some (.ret vals)) : ({ s with retBlock := some r } : Lowering).Coherent := by
  have hl : s.Linked := hc.linked
  have hb : s.Bounded := hc.bounded
  refine ⟨⟨hl.sizes, hl.targets, hl.preds, hl.nodup, fun r' hr' => ?_⟩,
    ⟨hb.stack, hb.spare, hb.elseArgs, hb.blocks, hb.states, hb.operands⟩, hc.arity, hc.rets⟩
  cases hr'
  exact ⟨hr, vals, hvals⟩

end Coherent

end Lowering

end WasmImage.Ssa
