import WasmImage.Proofs.LowerLookup
import WasmImage.Proofs.Lowered

/-!
# Lowering keeps its first edges ranked

Every state a lowering reaches is *founded* (`Lowering.Founded`): some ranking of the blocks puts
the source of the first edge into each block below the block, and the header of every open loop
has an edge, the one it was entered by. By `LowerLookup`, reading a local and sealing a block
then settle within the fuel the lowering gives.

A branch records its edges into blocks that admit them (`Lowering.Admits`): a block that has an
edge already, which keeps its first one, or a block that is not the current one and that no edge
leaves, which is ranked anew just above the current block. The targets a branch can take are of
these kinds: a loop header has its entering edge, the block a frame continues in and a new block
have no terminator, and the block that returns has no successor.

Main statements: `Founded.instr`, every instruction keeps the invariant, and
`Lowers.lookup_settles`, in every state reached, reading any local and sealing any block settle.
-/

namespace WasmImage.Ssa

open Wasm Lower

/-! ## Recording edges -/

section Ranking

variable {r : Nat → Nat} {sts sts' : Array BlockState}

/-- A ranking survives steps that keep the edges and only add blocks. -/
theorem RankedBy.mono (hr : RankedBy r sts) (hpreds : predsAt sts' = predsAt sts)
    (hsize : sts.size ≤ sts'.size) : RankedBy r sts' := by
  intro j e he
  rw [hpreds] at he
  obtain ⟨hsrc, hlt⟩ := hr j e he
  exact ⟨Nat.lt_of_lt_of_le hsrc hsize, hlt⟩

/-- Recording the edges of a terminator of block `cur` keeps the first edges ranked, when each
block they go to has an edge already, or is not `cur` and no edge leaves it: such a block is
ranked anew, just above `cur`. -/
theorem RankedBy.linkEdges (hr : RankedBy r sts) {cur : Nat} (hcur : cur < sts.size)
    {l : List (Target × Nat)} (hl : ∀ p ∈ l, p.1.block < sts.size)
    (hfree : ∀ p ∈ l, predsAt sts p.1.block = [] →
      p.1.block ≠ cur ∧ ∀ c, ∀ e ∈ predsAt sts c, e.src ≠ p.1.block) :
    ∃ r', RankedBy r' (Lower.linkEdges cur l sts) := by
  classical
  -- the blocks that get their first edge now
  let fresh : Nat → Prop := fun x => predsAt sts x = [] ∧ ∃ p ∈ l, p.1.block = x
  have hsrc_old : ∀ c, ∀ e ∈ predsAt sts c, ¬ fresh e.src := by
    rintro c e he ⟨hnil, p, hp, hpx⟩
    exact (hfree p hp (hpx ▸ hnil)).2 c e he hpx.symm
  have hcur_old : ¬ fresh cur := by
    rintro ⟨hnil, p, hp, hpx⟩
    exact (hfree p hp (hpx ▸ hnil)).1 hpx
  refine ⟨fun x => if fresh x then r cur + 1 else r x, fun j e he => ?_⟩
  rw [predsAt_linkEdges cur l sts hl] at he
  rw [size_linkEdges]
  cases hj : predsAt sts j with
  | cons e₀ rest =>
    -- the first edge into `j` stays its first
    rw [hj, List.cons_append, List.head?_cons, Option.some.injEq] at he
    subst he
    have hmem : e₀ ∈ predsAt sts j := by rw [hj]; exact List.mem_cons_self
    have hj' : ¬ fresh j := fun h => List.cons_ne_nil _ _ (hj ▸ h.1)
    obtain ⟨hsrc, hlt⟩ := hr j e₀ (by rw [hj]; rfl)
    simp only [hj', hsrc_old j e₀ hmem, if_false]
    exact ⟨hsrc, hlt⟩
  | nil =>
    -- the first edge into `j` is one of `cur`'s, and `j` is ranked just above `cur`
    rw [hj, List.nil_append] at he
    obtain ⟨p, hp, rfl⟩ := List.mem_map.mp (List.mem_of_mem_head? he)
    obtain ⟨hpl, hpj⟩ := List.mem_filter.mp hp
    have hfresh : fresh j := ⟨hj, p, hpl, by simpa using hpj⟩
    simp only [hfresh, hcur_old, if_true, if_false]
    exact ⟨hcur, Nat.lt_succ_self _⟩

end Ranking

namespace Lowering

variable {s s' : Lowering} {ok : Operator → Prop}

/-- An edge out of a block that has no terminator, or one with no successor, is never
recorded. -/
theorem Linked.not_source (hl : s.Linked) {j : Nat}
    (hj : ∀ t, termAt s.blocks j = some t → t.successors = []) {c : Nat} {e : PredEdge}
    (he : e ∈ predsAt s.states c) : e.src ≠ j := by
  rintro rfl
  obtain ⟨t, ht, -⟩ := Option.map_eq_some_iff.mp ((hl.preds c e).mp he)
  unfold edgeAt at ht
  obtain ⟨term, hterm, hsucc⟩ := Option.bind_eq_some_iff.mp ht
  rw [hj term hterm] at hsucc
  cases hsucc

/-- An edge from the current block into block `j` keeps the first edges ranked: `j` has an edge
already, or it is not the current block and no edge leaves it. -/
def Admits (s : Lowering) (j : Nat) : Prop :=
  predsAt s.states j ≠ [] ∨ (j ≠ s.cur ∧ ∀ c, ∀ e ∈ predsAt s.states c, e.src ≠ j)

/-- The first edge into every block comes from a block of lower rank, and the header of every
open loop has an edge, the one it was entered by. -/
structure Founded (s : Lowering) : Prop where
  ranked : ∃ r, RankedBy r s.states
  entered : ∀ f ∈ s.frames, f.kind = .loop → predsAt s.states f.header ≠ []

/-- Steps that keep the edges and the frames and only add blocks keep a lowering founded. -/
theorem Founded.of_preds (hd : s.Founded) (hpreds : predsAt s'.states = predsAt s.states)
    (hsize : s.states.size ≤ s'.states.size) (hframes : s'.frames = s.frames) : s'.Founded := by
  obtain ⟨r, hr⟩ := hd.ranked
  refine ⟨⟨r, hr.mono hpreds hsize⟩, fun f hf hk => ?_⟩
  rw [hpreds]
  exact hd.entered f (hframes ▸ hf) hk

/-- `s'` comes from `s` by steps that record no edge and keep the frames and the current block;
blocks may be added. -/
structure Calm (s s' : Lowering) : Prop where
  preds : predsAt s'.states = predsAt s.states
  size : s.states.size ≤ s'.states.size
  cur : s'.cur = s.cur
  frames : s'.frames = s.frames

namespace Calm

variable {s₁ s₂ s₃ : Lowering}

theorem refl (s : Lowering) : Calm s s := ⟨rfl, Nat.le_refl _, rfl, rfl⟩

theorem trans (h₁ : Calm s₁ s₂) (h₂ : Calm s₂ s₃) : Calm s₁ s₃ :=
  ⟨h₂.preds.trans h₁.preds, Nat.le_trans h₁.size h₂.size, h₂.cur.trans h₁.cur,
    h₂.frames.trans h₁.frames⟩

/-- Steps that leave the block states, the current block and the frames. -/
theorem of_eq (hstates : s₂.states = s₁.states) (hcur : s₂.cur = s₁.cur) (hframes : s₂.frames = s₁.frames) :
    Calm s₁ s₂ :=
  ⟨by rw [hstates], by rw [hstates], hcur, hframes⟩

theorem of_resolves (h : Resolves s₁ s₂) : Calm s₁ s₂ := by
  obtain ⟨bs, vs, sts, rfl⟩ := h.rest
  exact ⟨h.preds, Nat.le_of_eq h.states.symm, rfl, rfl⟩

theorem newBlock (s : Lowering) :
    Calm s { s with blocks := s.blocks.push {}, states := s.states.push {} } :=
  ⟨predsAt_push_empty, by simp, rfl, rfl⟩

theorem of_addsParams {blk k : Nat} (h : AddsParams blk k s₁ s₂) : Calm s₁ s₂ :=
  of_eq h.states.1 h.sameControl.cur h.sameControl.frames

theorem founded (h : Calm s₁ s₂) (hd : s₁.Founded) : s₂.Founded :=
  hd.of_preds h.preds h.size h.frames

theorem cur_lt (h : Calm s₁ s₂) (hcur : s₁.cur < s₁.states.size) : s₂.cur < s₂.states.size := by
  rw [h.cur]
  exact Nat.lt_of_lt_of_le hcur h.size

theorem admits {j : Nat} (h : Calm s₁ s₂) (ha : s₁.Admits j) : s₂.Admits j := by
  unfold Admits
  rw [h.preds, h.cur]
  exact ha

end Calm

/-! ## The steps that record edges or change frames -/

/-- Ending a block adds none. -/
theorem sizes_terminate {t : Terminator} (h : (Lower.terminate t).run s = .ok ((), s')) :
    s'.states.size = s.states.size ∧ s'.blocks.size = s.blocks.size := by
  rw [terminate_run] at h
  cases h
  simp [size_linkEdges]

/-- Once a block is ended, each block it goes to has an edge. -/
theorem preds_ne_nil_terminate {t : Terminator} (h : (Lower.terminate t).run s = .ok ((), s'))
    (ht : ∀ e ∈ t.successors, e.block < s.states.size) {e : Target} (he : e ∈ t.successors) :
    predsAt s'.states e.block ≠ [] := by
  rw [terminate_run] at h
  cases h
  obtain ⟨i, hi, rfl⟩ := List.getElem_of_mem he
  have hmem : (t.successors[i], i) ∈ t.successors.zipIdx :=
    List.mem_zipIdx_iff_getElem?.mpr (List.getElem?_eq_getElem hi)
  rw [predsAt_linkEdges _ _ _ fun p hp => ht p.1 (List.fst_mem_of_mem_zipIdx hp)]
  intro hnil
  have hnone := List.map_eq_nil_iff.mp (List.append_eq_nil_iff.mp hnil).2
  exact List.filter_eq_nil_iff.mp hnone _ hmem (by simp)

namespace Founded

/-- Ending the current block, which exists, by a terminator whose targets exist and admit an
edge keeps a lowering founded. -/
theorem terminate (hd : s.Founded) (hcur : s.cur < s.states.size) {t : Terminator}
    (ht : ∀ e ∈ t.successors, e.block < s.states.size ∧ s.Admits e.block)
    (h : (Lower.terminate t).run s = .ok ((), s')) : s'.Founded := by
  rw [terminate_run] at h
  cases h
  obtain ⟨r, hr⟩ := hd.ranked
  have hl : ∀ p ∈ t.successors.zipIdx, p.1.block < s.states.size :=
    fun p hp => (ht p.1 (List.fst_mem_of_mem_zipIdx hp)).1
  refine ⟨hr.linkEdges hcur hl fun p hp hnil => ?_, fun f hf hk => ?_⟩
  · rcases (ht p.1 (List.fst_mem_of_mem_zipIdx hp)).2 with hne | hfree
    · exact absurd hnil hne
    · exact hfree
  · -- edges are only added, so an open loop's header keeps its entering edge
    rw [predsAt_linkEdges _ _ _ hl]
    exact fun hnil => hd.entered f hf hk (List.append_eq_nil_iff.mp hnil).1

/-- Ending the current block by a branch to a block that exists and admits the edge; that block
has an edge then. -/
theorem terminate_br (hd : s.Founded) (hcur : s.cur < s.states.size) {e : Target}
    (he : e.block < s.states.size) (hadm : s.Admits e.block)
    (h : (Lower.terminate (.br e)).run s = .ok ((), s')) : s'.Founded ∧ predsAt s'.states e.block ≠ [] := by
  have ht : ∀ e' ∈ (Terminator.br e).successors, e'.block < s.states.size ∧ s.Admits e'.block := by
    simp only [Terminator.successors, List.mem_singleton, forall_eq]
    exact ⟨he, hadm⟩
  exact ⟨hd.terminate hcur ht h,
    preds_ne_nil_terminate h (fun e' he' => (ht e' he').1) (List.mem_singleton_self _)⟩

/-- Changing the frames, by steps that keep the edges, keeps a lowering founded when the header
of every open loop has an edge. -/
theorem setFrames (hd : s.Founded) (hpreds : predsAt s'.states = predsAt s.states)
    (hsize : s.states.size ≤ s'.states.size)
    (hframes : ∀ f ∈ s'.frames, f.kind = .loop → predsAt s.states f.header ≠ []) : s'.Founded := by
  obtain ⟨r, hr⟩ := hd.ranked
  refine ⟨⟨r, hr.mono hpreds hsize⟩, fun f hf hk => ?_⟩
  rw [hpreds]
  exact hframes f hf hk

/-- Sealing a block of a founded lowering settles and records no edge. -/
theorem sealBlock (hd : s.Founded) (hsizes : s.states.size ≤ s.blocks.size) {blk : Nat}
    (h : (Lower.sealBlock blk).run s = .ok ((), s')) : Resolves s s' := by
  obtain ⟨r, hr⟩ := hd.ranked
  obtain ⟨s'', h'', hres⟩ := sealBlock_settles hr hsizes blk
  rw [h''] at h
  cases h
  exact hres

end Founded

/-! ## The blocks a branch goes to -/

namespace Formed

theorem cur_lt_states (hf : s.Formed ok) : s.cur < s.states.size := by
  rw [hf.built.linked.sizes]
  exact hf.cur

/-- No edge leaves a block a frame has to end. -/
theorem not_source_pending (hf : s.Formed ok) {j : Nat} (hj : j ∈ pendingOf s.frames) {c : Nat}
    {e : PredEdge} (he : e ∈ predsAt s.states c) : e.src ≠ j := by
  refine hf.built.linked.not_source (fun t ht => ?_) he
  rw [hf.pending j hj] at ht
  cases ht

/-- A block a frame has to end admits an edge from live code. -/
theorem admits_pending (hf : s.Formed ok) (hlive : s.unreachable = false) {j : Nat}
    (hj : j ∈ pendingOf s.frames) : s.Admits j :=
  .inr ⟨fun h => (hf.reach hlive).2 (h ▸ hj), fun _ _ he => hf.not_source_pending hj he⟩

/-- The block that returns admits an edge from live code. -/
theorem admits_ret (hf : s.Formed ok) (hlive : s.unreachable = false) {j : Nat}
    (hj : s.retBlock = some j) : s.Admits j := by
  obtain ⟨-, vals, hvals⟩ := hf.built.linked.ret j hj
  refine .inr ⟨fun h => ?_, fun _ _ he => hf.built.linked.not_source (fun t ht => ?_) he⟩
  · have hopen := (hf.reach hlive).1
    rw [← h, hvals] at hopen
    cases hopen
  · rw [hvals] at ht
    cases ht
    rfl

/-- A block made after `s`, by steps that record no edge, admits one. -/
theorem admits_new {s₁ : Lowering} (hf : s.Formed ok) (hcalm : Calm s s₁) {j : Nat}
    (hj : s.blocks.size ≤ j) : s₁.Admits j := by
  have hcur := hf.cur
  refine .inr ⟨?_, fun c e he => ?_⟩
  · rw [hcalm.cur]
    omega
  · rw [hcalm.preds] at he
    have hsrc := (hf.built.linked.src_of_pred he).1
    omega

end Formed

namespace Founded

/-- Asking for the block that returns records no edge, and gives, to live code, a block that
admits one. -/
theorem returnBlock (hd : s.Founded) (hf : s.Formed ok) (hlive : s.unreachable = false) {b : Nat}
    (h : Lower.returnBlock.run s = .ok (b, s')) : Calm s s' ∧ s'.Admits b ∧ b < s'.states.size := by
  have hsizes := hf.built.linked.sizes
  simp only [Lower.returnBlock, StateT.run_bind, get_run, ok_bind] at h
  split at h
  · -- made before
    rename_i r hr
    rw [pure_run] at h
    cases h
    exact ⟨Calm.refl s, hf.admits_ret hlive hr, by rw [hsizes]; exact (hf.built.linked.ret b hr).1⟩
  simp only [StateT.run_bind, newBlock_run, get_run, ok_bind] at h
  obtain ⟨⟨vals, s₂⟩, h₂, h⟩ := bind_eq_ok h
  obtain ⟨⟨_, s₃⟩, h₃, h⟩ := bind_eq_ok h
  simp only [modifyBlock_run, modify_run, ok_bind, pure_run] at h
  cases h
  -- a new block, with one parameter per result, sealed
  obtain ⟨-, hadd, -⟩ :=
    AddsParams.mapM_built (by simp) s.results 0 _ vals s₂ hf.built.newBlock (AddsParams.refl _ _) h₂
  obtain ⟨bs₂, vs₂, rfl⟩ := hadd.rest
  have hsize₂ : bs₂.size = s.blocks.size + 1 := by simpa using hadd.size
  have hcalm₂ : Calm s { s with blocks := bs₂, values := vs₂, states := s.states.push {} } :=
    (Calm.newBlock s).trans (Calm.of_eq rfl rfl rfl)
  have hres₃ := (hcalm₂.founded hd).sealBlock (by simp [hsize₂, hsizes]) h₃
  have hcalm : Calm s { s₃ with
      blocks := s₃.blocks.modify s.blocks.size fun b => { b with term := some (.ret vals) }
      retBlock := some s.blocks.size } :=
    (hcalm₂.trans (Calm.of_resolves hres₃)).trans (Calm.of_eq rfl rfl rfl)
  refine ⟨hcalm, hf.admits_new hcalm (Nat.le_refl _), ?_⟩
  show s.blocks.size < s₃.states.size
  rw [hres₃.states]
  simp [hsizes]

/-- The block a branch from live code to `label` goes to exists and admits an edge; finding it
records none. -/
theorem target (hd : s.Founded) (hf : s.Formed ok) (hlive : s.unreachable = false) {label : UInt32}
    {blk n : Nat} (h : (Lower.target label).run s = .ok ((blk, n), s')) :
    Calm s s' ∧ s'.Admits blk ∧ blk < s'.states.size := by
  have hsizes := hf.built.linked.sizes
  simp only [Lower.target, StateT.run_bind, get_run, ok_bind] at h
  split at h
  · cases h
  cases hfr : s.frames[s.frames.size - 1 - label.toNat]? with
  | none => simp only [hfr] at h; cases h
  | some f =>
    simp only [hfr] at h
    have hmem : f ∈ s.frames := Array.mem_of_getElem? hfr
    have hlt := hf.frames f hmem
    split at h
    · -- the function's frame: the block that returns
      rw [StateT.run_bind] at h
      obtain ⟨⟨b, s₁⟩, h₁, h⟩ := bind_eq_ok h
      rw [pure_run] at h
      cases h
      exact hd.returnBlock hf hlive h₁
    · -- a loop: its header, which has its entering edge
      rename_i hk
      rw [pure_run] at h
      cases h
      exact ⟨Calm.refl s, .inl (hd.entered f hmem hk), by rw [hsizes]; exact hlt.1⟩
    · -- any other frame: the block it continues in, which the frame has to end
      rename_i hfun _
      rw [pure_run] at h
      cases h
      refine ⟨Calm.refl s, hf.admits_pending hlive ?_, by rw [hsizes]; exact hlt.2⟩
      exact mem_pendingOf.mpr ⟨f, hmem, Frame.mem_pending.mpr (.inl ⟨hfun, rfl⟩)⟩

/-! ## Branches -/

/-- A branch of live code returns, or goes to the block of its label. -/
theorem br (hd : s.Founded) (hf : s.Formed ok) (hlive : s.unreachable = false) {label : UInt32}
    (h : (Lower.br label).run s = .ok ((), s')) : s'.Founded := by
  simp only [Lower.br, StateT.run_bind, get_run, ok_bind] at h
  split at h
  · rw [StateT.run_bind] at h
    obtain ⟨⟨vals, s₁⟩, h₁, h⟩ := bind_eq_ok h
    obtain ⟨-, rfl, rfl⟩ := peek_run s h₁
    exact hd.terminate hf.cur_lt_states (by simp [Terminator.successors]) h
  · rw [StateT.run_bind] at h
    obtain ⟨⟨⟨blk, n⟩, s₁⟩, h₁, h⟩ := bind_eq_ok h
    obtain ⟨hcalm, hadm, hblk⟩ := hd.target hf hlive h₁
    rw [StateT.run_bind] at h
    obtain ⟨⟨args, s₂⟩, h₂, h⟩ := bind_eq_ok h
    obtain ⟨-, rfl, rfl⟩ := peek_run _ h₂
    exact ((hcalm.founded hd).terminate_br (hcalm.cur_lt hf.cur_lt_states) hblk hadm h).1

/-- A conditional branch goes to the block of its label and to a new block, sealed at once. -/
theorem brIf (hd : s.Founded) (hf : s.Formed ok) (hlive : s.unreachable = false) {label : UInt32}
    (h : (Lower.brIf label).run s = .ok ((), s')) : s'.Founded := by
  simp only [Lower.brIf, StateT.run_bind] at h
  obtain ⟨⟨cond, s₁⟩, h₁, h⟩ := bind_eq_ok h
  obtain ⟨-, -, rfl⟩ := pop_run s h₁
  have hf₁ := hf.popOperands (s.stack.size - 1)
  have hd₁ : ({ s with
      stack := s.stack.extract 0 (s.stack.size - 1)
      spare := s.stack.extract (s.stack.size - 1) s.stack.size ++ s.spare } : Lowering).Founded :=
    hd.of_preds rfl (Nat.le_refl _) rfl
  obtain ⟨⟨⟨blk, n⟩, s₂⟩, h₂, h⟩ := bind_eq_ok h
  obtain ⟨hcalm₂, hadm, hblk⟩ := hd₁.target hf₁ hlive h₂
  obtain ⟨hf₂, ha₂, -, -⟩ := hf₁.target h₂
  obtain ⟨⟨args, s₃⟩, h₃, h⟩ := bind_eq_ok h
  obtain ⟨-, rfl, hs₃⟩ := peek_run _ h₃
  subst s₃
  simp only [newBlock_run, ok_bind] at h
  obtain ⟨⟨_, s₄⟩, h₄, h⟩ := bind_eq_ok h
  obtain ⟨⟨_, s₅⟩, h₅, h⟩ := bind_eq_ok h
  rw [modify_run] at h
  cases h
  have hsizes₂ := hf₂.built.linked.sizes
  have hcalm₃ := hcalm₂.trans (Calm.newBlock s₂)
  have hd₄ := (hcalm₃.founded hd₁).terminate (hcalm₃.cur_lt hf₁.cur_lt_states) ?_ h₄
  · -- sealing the new block records no edge
    obtain ⟨hst₄, hbl₄⟩ := sizes_terminate h₄
    have hres₅ := hd₄.sealBlock (by simp [hst₄, hbl₄, hsizes₂]) h₅
    exact ((Calm.of_resolves hres₅).founded hd₄).of_preds rfl (Nat.le_refl _) rfl
  · simp only [Terminator.successors, List.mem_cons, List.not_mem_nil, or_false, forall_eq_or_imp,
      forall_eq, Array.size_push]
    exact ⟨⟨by omega, (Calm.newBlock s₂).admits hadm⟩, by omega, hf₁.admits_new hcalm₃ ha₂.size⟩

/-- A table branch goes to the blocks of its labels and of its default. -/
theorem brTable (hd : s.Founded) (hf : s.Formed ok) (hlive : s.unreachable = false)
    {labels : List UInt32} {default : UInt32}
    (h : (Lower.brTable labels default).run s = .ok ((), s')) : s'.Founded := by
  simp only [Lower.brTable, StateT.run_bind] at h
  obtain ⟨⟨index, s₁⟩, h₁, h⟩ := bind_eq_ok h
  obtain ⟨-, -, rfl⟩ := pop_run s h₁
  have hf₁ := hf.popOperands (s.stack.size - 1)
  have hd₁ : ({ s with
      stack := s.stack.extract 0 (s.stack.size - 1)
      spare := s.stack.extract (s.stack.size - 1) s.stack.size ++ s.spare } : Lowering).Founded :=
    hd.of_preds rfl (Nat.le_refl _) rfl
  split at h
  · exact hd₁.br hf₁ hlive h
  rw [StateT.run_bind] at h
  obtain ⟨⟨⟨blk, n⟩, s₂⟩, h₂, h⟩ := bind_eq_ok h
  obtain ⟨hcalm₂, hadm, hblk⟩ := hd₁.target hf₁ hlive h₂
  obtain ⟨hf₂, -, hsame₂, -⟩ := hf₁.target h₂
  have hd₂ := hcalm₂.founded hd₁
  rw [StateT.run_bind] at h
  obtain ⟨⟨args, s₃⟩, h₃, h⟩ := bind_eq_ok h
  obtain ⟨-, rfl, hs₃⟩ := peek_run _ h₃
  subst s₃
  rw [StateT.run_bind] at h
  obtain ⟨⟨targets, s₄⟩, h₄, h⟩ := bind_eq_ok h
  -- finding each label's block records no edge, and the block admits one
  have key := forIn_run_invariant (fun _ acc t => t.Formed ok ∧ Calm s₂ t ∧ t.unreachable = false ∧
      ∀ e ∈ acc, e.block < t.states.size ∧ t.Admits e.block)
    ?_ ⟨hf₂, Calm.refl s₂, hsame₂.unreachable.trans hlive, by simp⟩ h₄
  · obtain ⟨-, hcalm₄, -, htargets⟩ := key
    refine (hcalm₄.founded hd₂).terminate (hcalm₄.cur_lt (hcalm₂.cur_lt hf₁.cur_lt_states)) ?_ h
    intro e he
    simp only [Terminator.successors, List.mem_append, Array.mem_toList_iff, List.mem_singleton] at he
    rcases he with he | rfl
    · exact htargets e he
    · exact ⟨Nat.lt_of_lt_of_le hblk hcalm₄.size, hcalm₄.admits hadm⟩
  · rintro pre label rest acc t r t' - ⟨hft, hcalm, hlivet, hacc⟩ hstep
    rw [StateT.run_bind] at hstep
    obtain ⟨⟨⟨b, m⟩, t₁⟩, ht₁, hstep⟩ := bind_eq_ok hstep
    obtain ⟨hcalm₁, hadm₁, hb⟩ := (hcalm.founded hd₂).target hft hlivet ht₁
    obtain ⟨hft₁, -, hsamet₁, -⟩ := hft.target ht₁
    split at hstep
    · simp only [StateT.run_bind] at hstep
      cases hstep
    · rw [StateT.run_bind, dup_run, ok_bind, pure_run] at hstep
      cases hstep
      refine ⟨_, rfl, hft₁, hcalm.trans hcalm₁, hsamet₁.unreachable.trans hlivet, fun e he => ?_⟩
      rcases Array.mem_push.mp he with he | rfl
      · obtain ⟨hlt, hadm'⟩ := hacc e he
        exact ⟨Nat.lt_of_lt_of_le hlt hcalm₁.size, hcalm₁.admits hadm'⟩
      · exact ⟨hb, hadm₁⟩

/-! ## Frames -/

/-- Entering a block adds the block it continues in. -/
theorem enter_block (hd : s.Founded) (hf : s.Formed ok) {params results : List ValType}
    (h : (Lower.enter 0x02 params results).run s = .ok ((), s')) : s'.Founded := by
  simp only [Lower.enter, StateT.run_bind, get_run, ok_bind] at h
  split at h
  · cases h
  simp only [StateT.run_bind, newBlock_run, ok_bind] at h
  obtain ⟨⟨_, s₁⟩, h₁, h⟩ := bind_eq_ok h
  rw [modify_run] at h
  cases h
  obtain ⟨-, hadd⟩ := AddsParams.forIn_built hf.built.newBlock (by simp) h₁
  have hcalm := (Calm.newBlock s).trans (Calm.of_addsParams hadd)
  refine hd.setFrames hcalm.preds hcalm.size fun f hf' hk => ?_
  rcases Array.mem_push.mp hf' with hf' | rfl
  · exact hd.entered f (hcalm.frames ▸ hf') hk
  · cases hk

/-- Entering a loop branches to its new header, which keeps that edge while the loop is open. -/
theorem enter_loop (hd : s.Founded) (hf : s.Formed ok) {params results : List ValType}
    (h : (Lower.enter 0x03 params results).run s = .ok ((), s')) : s'.Founded := by
  simp only [Lower.enter, StateT.run_bind, get_run, ok_bind] at h
  split at h
  · cases h
  simp only [StateT.run_bind, newBlock_run, ok_bind] at h
  obtain ⟨⟨_, s₂⟩, h₂, h⟩ := bind_eq_ok h
  obtain ⟨⟨_, s₃⟩, h₃, h⟩ := bind_eq_ok h
  simp only [dup_run, ok_bind] at h
  obtain ⟨⟨_, s₄⟩, h₄, h⟩ := bind_eq_ok h
  simp only [modify_run, switchTo_run, ok_bind] at h
  cases h
  -- the header and the block after the loop, with their parameters
  obtain ⟨hb₂, hadd₂⟩ := AddsParams.forIn_built hf.built.newBlock.newBlock (by simp) h₂
  obtain ⟨-, hadd₃⟩ := AddsParams.forIn_built hb₂ (by rw [hadd₂.size]; simp) h₃
  have hcalm₃ : Calm s s₃ := (((Calm.newBlock s).trans (Calm.newBlock _)).trans
    (Calm.of_addsParams hadd₂)).trans (Calm.of_addsParams hadd₃)
  have hheader : s.blocks.size < s₃.states.size := by
    simp [hadd₃.states.1, hadd₂.states.1, hf.built.linked.sizes]
  -- the branch to the header, the loop's entering edge
  obtain ⟨hd₄, hentered⟩ := (hcalm₃.founded hd).terminate_br (hcalm₃.cur_lt hf.cur_lt_states) hheader
    (hf.admits_new hcalm₃ (Nat.le_refl _)) h₄
  refine hd₄.setFrames rfl (Nat.le_refl _) fun f hf' hk => ?_
  rcases Array.mem_push.mp hf' with hf' | rfl
  · exact hd₄.entered f hf' hk
  · exact hentered

/-- Entering an `if` branches to its new then and else blocks, both sealed at once. -/
theorem enter_if (hd : s.Founded) (hf : s.Formed ok) {op : UInt8} (hop₂ : op ≠ 0x02)
    (hop₃ : op ≠ 0x03) {params results : List ValType}
    (h : (Lower.enter op params results).run s = .ok ((), s')) : s'.Founded := by
  simp only [Lower.enter, StateT.run_bind, get_run, ok_bind] at h
  split at h
  · cases h
  split at h
  · simp only [StateT.run_bind] at h
    obtain ⟨_, -, h⟩ := bind_eq_ok h
    cases h
  simp only [StateT.run_bind] at h
  obtain ⟨⟨cond, s₀⟩, h₀, h⟩ := bind_eq_ok h
  obtain ⟨-, -, rfl⟩ := pop_run s h₀
  have hf₀ := hf.popOperands (s.stack.size - 1)
  have hd₀ : ({ s with
      stack := s.stack.extract 0 (s.stack.size - 1)
      spare := s.stack.extract (s.stack.size - 1) s.stack.size ++ s.spare } : Lowering).Founded :=
    hd.of_preds rfl (Nat.le_refl _) rfl
  simp only [newBlock_run, ok_bind] at h
  obtain ⟨⟨_, s₃⟩, h₃, h⟩ := bind_eq_ok h
  simp only [dup_run, ok_bind] at h
  obtain ⟨⟨_, s₄⟩, h₄, h⟩ := bind_eq_ok h
  obtain ⟨⟨_, s₅⟩, h₅, h⟩ := bind_eq_ok h
  obtain ⟨⟨_, s₆⟩, h₆, h⟩ := bind_eq_ok h
  rw [modify_run] at h
  cases h
  -- the then and else blocks, and the block after the `if` with its parameters
  obtain ⟨hb₃, hadd₃⟩ := AddsParams.forIn_built hf₀.built.newBlock.newBlock.newBlock (by simp) h₃
  have hcalm₃ := (((Calm.newBlock _).trans (Calm.newBlock _)).trans (Calm.newBlock _)).trans
    (Calm.of_addsParams hadd₃)
  have hsizes₃ := hb₃.linked.sizes
  have hsize₃ : s₃.blocks.size = s.blocks.size + 3 := by
    rw [hadd₃.size]
    simp
  -- the current block branches to both, which are new
  have hd₄ := (hcalm₃.founded hd₀).terminate (hcalm₃.cur_lt hf₀.cur_lt_states) (fun e he => by
      simp only [Terminator.successors, List.mem_cons, List.not_mem_nil, or_false] at he
      rcases he with rfl | rfl
      · exact ⟨by dsimp only; omega, hf₀.admits_new hcalm₃ (Nat.le_refl _)⟩
      · exact ⟨by simp only [Array.size_push]; omega, hf₀.admits_new hcalm₃ (by simp)⟩) h₄
  obtain ⟨hst₄, hbl₄⟩ := sizes_terminate h₄
  -- sealing them records no edge
  have hres₅ := hd₄.sealBlock (by omega) h₅
  have hd₅ := (Calm.of_resolves hres₅).founded hd₄
  have hres₆ := hd₅.sealBlock (by rw [hres₅.states, hres₅.blocks]; omega) h₆
  have hd₆ := (Calm.of_resolves hres₆).founded hd₅
  refine hd₆.setFrames rfl (Nat.le_refl _) fun f hf' hk => ?_
  rcases Array.mem_push.mp hf' with hf' | rfl
  · exact hd₆.entered f hf' hk
  · cases hk

/-- Entering a block, a loop or an `if`. -/
theorem enter (hd : s.Founded) (hf : s.Formed ok) {op : UInt8} {params results : List ValType}
    (h : (Lower.enter op params results).run s = .ok ((), s')) : s'.Founded := by
  by_cases h₂ : op = 0x02
  · subst h₂
    exact hd.enter_block hf h
  by_cases h₃ : op = 0x03
  · subst h₃
    exact hd.enter_loop hf h
  exact hd.enter_if hf h₂ h₃ h

end Founded

/-- An operator records no edge and stays in the current block. -/
theorem Calm.of_operator {op : UInt8} {imm : Option Imm}
    (h : (Lower.operator op imm).run s = .ok ((), s')) : Calm s s' := by
  simp only [Lower.operator, StateT.run_bind] at h
  obtain ⟨⟨⟨n, results⟩, s₁⟩, h₁, h⟩ := bind_eq_ok h
  have hs₁ := effect_state h₁
  subst s₁
  obtain ⟨⟨args, s₂⟩, h₂, h⟩ := bind_eq_ok h
  obtain ⟨-, rfl, rfl⟩ := pop_run s h₂
  obtain ⟨⟨vs, s₃⟩, h₃, h⟩ := bind_eq_ok h
  obtain ⟨picks, -, rfl, -⟩ := Lower.emit_picks h₃
  obtain ⟨sp, hrun, -⟩ := forIn_push_run vs _
  rw [hrun] at h
  cases h
  exact Calm.of_eq rfl rfl rfl

namespace Founded

/-- Going on in another block records no edge. -/
theorem switchTo (hd : s.Founded) {base blk n : Nat}
    (h : (Lower.switchTo base blk n).run s = .ok ((), s')) : s'.Founded := by
  rw [switchTo_run] at h
  cases h
  exact hd.of_preds rfl (Nat.le_refl _) rfl

/-- The end of a frame other than the function's, from a founded `s₂` whose frames no longer
hold it: the blocks it collects edges for are sealed, and the else block of an `if` with no
`else` branches to the block after it, which has to admit that edge. -/
theorem closeFrame {f : Frame} {s₂ : Lowering} (hd : s₂.Founded)
    (hsizes : s₂.states.size ≤ s₂.blocks.size) (hheader : f.header < s₂.states.size)
    (hfol : f.following < s₂.states.size)
    (hif : f.kind = .ifNoElse →
      ({ s₂ with unreachable := false, cur := f.header } : Lowering).Admits f.following)
    (h : (match f.kind with
      | .loop => do
        Lower.sealBlock f.header
        Lower.sealBlock f.following
        Lower.switchTo f.base f.following f.results.length
      | .ifNoElse => do
        modify fun s : Lowering => { s with cur := f.header }
        Lower.terminate (.br ⟨f.following, f.elseArgs⟩)
        Lower.sealBlock f.following
        Lower.switchTo f.base f.following f.results.length
      | _ => do
        Lower.sealBlock f.following
        Lower.switchTo f.base f.following f.results.length : LowerM Unit).run
        { s₂ with unreachable := false } = .ok ((), s')) : s'.Founded := by
  have hd₃ : ({ s₂ with unreachable := false } : Lowering).Founded := hd.of_preds rfl (Nat.le_refl _) rfl
  split at h
  · -- a loop: its header is sealed too
    simp only [StateT.run_bind] at h
    obtain ⟨⟨_, s₄⟩, h₄, h⟩ := bind_eq_ok h
    obtain ⟨⟨_, s₅⟩, h₅, h⟩ := bind_eq_ok h
    have hres₄ := hd₃.sealBlock hsizes h₄
    have hd₄ := (Calm.of_resolves hres₄).founded hd₃
    have hres₅ := hd₄.sealBlock (by rw [hres₄.states, hres₄.blocks]; exact hsizes) h₅
    exact ((Calm.of_resolves hres₅).founded hd₄).switchTo h
  · -- an `if` without `else`: its else block goes to the block after it
    rename_i hk
    simp only [StateT.run_bind, modify_run, ok_bind] at h
    obtain ⟨⟨_, s₄⟩, h₄, h⟩ := bind_eq_ok h
    obtain ⟨⟨_, s₅⟩, h₅, h⟩ := bind_eq_ok h
    have hd₃' : ({ s₂ with unreachable := false, cur := f.header } : Lowering).Founded :=
      hd.of_preds rfl (Nat.le_refl _) rfl
    obtain ⟨hd₄, -⟩ := hd₃'.terminate_br hheader hfol (hif hk) h₄
    obtain ⟨hst₄, hbl₄⟩ := sizes_terminate h₄
    have hres₅ := hd₄.sealBlock (by rw [hst₄, hbl₄]; exact hsizes) h₅
    exact ((Calm.of_resolves hres₅).founded hd₄).switchTo h
  · -- any other frame: only the block after it
    simp only [StateT.run_bind] at h
    obtain ⟨⟨_, s₅⟩, h₅, h⟩ := bind_eq_ok h
    have hres₅ := hd₃.sealBlock hsizes h₅
    exact ((Calm.of_resolves hres₅).founded hd₃).switchTo h

/-- `else` ends the then branch, when live, with a branch to the block after the `if`, and goes
on in the else block. -/
theorem elseBranch (hd : s.Founded) (hf : s.Formed ok) (h : Lower.elseBranch.run s = .ok ((), s')) :
    s'.Founded := by
  simp only [Lower.elseBranch, StateT.run_bind, get_run, ok_bind] at h
  split at h
  · rw [pure_run] at h
    cases h
    exact hd
  cases hfb : s.frames.back? with
  | none => simp only [hfb] at h; cases h
  | some f =>
    simp only [hfb] at h
    split at h
    · cases h
    rename_i hk
    have hk : f.kind = .ifNoElse := by simpa using hk
    obtain ⟨fs, hfs⟩ := Array.back?_eq_some_iff.mp hfb
    have hmem : f ∈ s.frames := hfs ▸ Array.mem_push_self
    -- the frame, now of an `if` with an `else`, is no loop
    have hd₁ : ({ s with frames := s.frames.pop.push { f with kind := .ifElse } } : Lowering).Founded := by
      refine hd.setFrames rfl (Nat.le_refl _) fun g hg hkg => ?_
      rw [hfs, Array.pop_push] at hg
      rcases Array.mem_push.mp hg with hg | rfl
      · exact hd.entered g (hfs ▸ Array.mem_push_of_mem f hg) hkg
      · cases hkg
    rw [StateT.run_bind, modify_run, ok_bind] at h
    split at h
    · -- live code branches to the block after the `if`, which the frame has to end
      rename_i hlive
      have hlive : s.unreachable = false := by simpa using hlive
      have hfol : f.following ∈ pendingOf s.frames :=
        mem_pendingOf.mpr ⟨f, hmem, Frame.mem_pending.mpr (.inl ⟨by simp [hk], rfl⟩)⟩
      simp only [StateT.run_bind] at h
      obtain ⟨⟨args, s₁⟩, h₁, h⟩ := bind_eq_ok h
      obtain ⟨-, rfl, rfl⟩ := peek_run _ h₁
      obtain ⟨⟨_, s₂⟩, h₂, h⟩ := bind_eq_ok h
      rw [modify_run] at h
      cases h
      obtain ⟨hd₂, -⟩ := hd₁.terminate_br hf.cur_lt_states
        (by rw [hf.built.linked.sizes]; exact (hf.frames f hmem).2) (hf.admits_pending hlive hfol) h₂
      exact hd₂.of_preds rfl (Nat.le_refl _) rfl
    · cases h
      exact hd₁.of_preds rfl (Nat.le_refl _) rfl

/-- `end` closes the innermost frame: the function's returns when live; any other branches, when
live, to the block after it and goes on there. -/
theorem endFrame (hd : s.Founded) (hf : s.Formed ok) (h : Lower.endFrame.run s = .ok ((), s')) :
    s'.Founded := by
  simp only [Lower.endFrame, StateT.run_bind, get_run, ok_bind] at h
  split at h
  · simp only [StateT.run_bind, set_run, ok_bind, pure_run] at h
    cases h
    exact hd.of_preds rfl (Nat.le_refl _) rfl
  cases hfb : s.frames.back? with
  | none => simp only [hfb] at h; cases h
  | some f =>
    simp only [hfb, StateT.run_bind, modify_run, ok_bind] at h
    obtain ⟨fs, hfs⟩ := Array.back?_eq_some_iff.mp hfb
    have hmem : f ∈ s.frames := hfs ▸ Array.mem_push_self
    have hfr := hf.frames f hmem
    have hsizes := hf.built.linked.sizes
    have hd₁ : ({ s with frames := s.frames.pop } : Lowering).Founded := by
      refine hd.setFrames rfl (Nat.le_refl _) fun g hg hk => hd.entered g ?_ hk
      rw [hfs, Array.pop_push] at hg
      exact hfs ▸ Array.mem_push_of_mem f hg
    split at h
    · -- the function's end returns when live
      split at h
      · simp only [StateT.run_bind] at h
        obtain ⟨⟨vals, s₁⟩, h₁, h⟩ := bind_eq_ok h
        obtain ⟨-, rfl, rfl⟩ := peek_run _ h₁
        obtain ⟨⟨_, s₂⟩, h₂, h⟩ := bind_eq_ok h
        simp only [modify_run, ok_bind, pure_run] at h
        cases h
        exact (hd₁.terminate hf.cur_lt_states (by simp [Terminator.successors]) h₂).of_preds rfl
          (Nat.le_refl _) rfl
      · simp only [StateT.run_bind, modify_run, ok_bind, pure_run] at h
        cases h
        exact hd₁.of_preds rfl (Nat.le_refl _) rfl
    rename_i hkf
    have hfol : f.following ∈ pendingOf s.frames :=
      mem_pendingOf.mpr ⟨f, hmem, Frame.mem_pending.mpr (.inl ⟨hkf, rfl⟩)⟩
    split at h
    · -- live code first branches to the block after the frame, which then has an edge
      rename_i hlive
      have hlive : s.unreachable = false := by simpa using hlive
      simp only [StateT.run_bind] at h
      obtain ⟨⟨args, s₁⟩, h₁, h⟩ := bind_eq_ok h
      obtain ⟨-, rfl, rfl⟩ := peek_run _ h₁
      obtain ⟨⟨_, s₂⟩, h₂, h⟩ := bind_eq_ok h
      rw [modify_run, ok_bind] at h
      obtain ⟨hd₂, hentered⟩ := hd₁.terminate_br hf.cur_lt_states (by rw [hsizes]; exact hfr.2)
        (hf.admits_pending hlive hfol) h₂
      obtain ⟨hst₂, hbl₂⟩ := sizes_terminate h₂
      exact hd₂.closeFrame (by rw [hst₂, hbl₂]; exact Nat.le_of_eq hsizes) (by rw [hst₂, hsizes]; exact hfr.1)
        (by rw [hst₂, hsizes]; exact hfr.2) (fun _ => .inl hentered) h
    · -- after a branch, the block after an `if` with no `else` is not its else block, and no
      -- edge leaves it
      rw [StateT.run_bind, modify_run, ok_bind] at h
      refine hd₁.closeFrame (Nat.le_of_eq hsizes) (by rw [hsizes]; exact hfr.1) (by rw [hsizes]; exact hfr.2)
        (fun hk => .inr ⟨?_, fun c e he => hf.not_source_pending hfol he⟩) h
      have hnd := hf.distinct
      rw [hfs, pendingOf_push] at hnd
      have hpend := hnd.of_append_right
      simp [Frame.pending, hk] at hpend
      exact fun h => hpend h.symm

/-! ## Instructions -/

/-- Returning the values on top of the stack. -/
theorem returnTop (hd : s.Founded) (hcur : s.cur < s.states.size)
    (h : (do let vals ← peek (← get).results.length; Lower.terminate (.ret vals) : LowerM Unit).run s =
      .ok ((), s')) : s'.Founded := by
  simp only [StateT.run_bind, get_run, ok_bind] at h
  obtain ⟨⟨vals, s₁⟩, h₁, h⟩ := bind_eq_ok h
  obtain ⟨-, rfl, rfl⟩ := peek_run s h₁
  exact hd.terminate hcur (fun e he => by cases he) h

/-- A tail call: an operator, then a return. -/
theorem returnCall (hd : s.Founded) (hf : s.Formed ok) {op : UInt8} {imm : Option Imm}
    (h : (do Lower.operator op imm; let vals ← peek (← get).results.length; Lower.terminate (.ret vals) :
      LowerM Unit).run s = .ok ((), s')) : s'.Founded := by
  rw [StateT.run_bind] at h
  obtain ⟨⟨⟨⟩, s₁⟩, h₁, h⟩ := bind_eq_ok h
  have hcalm := Calm.of_operator h₁
  exact (hcalm.founded hd).returnTop (hcalm.cur_lt hf.cur_lt_states) h

/-- Reading a local, with the fuel the lowering gives, only resolves locals. -/
theorem readLocal (hd : s.Founded) (hsizes : s.states.size ≤ s.blocks.size) {blk : Nat} {idx : UInt32}
    {v : Nat}
    (h : (Lower.readLocal (2 * (s.blocks.size + 2) * (s.blocks.size + 2)) blk idx).run s = .ok (v, s')) :
    Resolves s s' := by
  obtain ⟨r, hr⟩ := hd.ranked
  obtain ⟨v', s'', h'', hres⟩ := readLocal_settles hr hsizes blk idx
  rw [StateT.run_bind, lookupFuel_run, ok_bind] at h''
  cases h''.symm.trans h
  exact hres

/-- Setting a local of the current block records no edge. -/
theorem setLocal (hd : s.Founded) {idx : UInt32} (tee : Prop) [Decidable tee]
    (h : (do
      let args ← Lower.pop 1
      let v := args.headD 0
      Lower.defineLocal (← get).cur idx v
      if tee then Lower.push v : LowerM Unit).run s = .ok ((), s')) : s'.Founded := by
  simp only [StateT.run_bind] at h
  obtain ⟨⟨args, s₁⟩, h₁, h⟩ := bind_eq_ok h
  obtain ⟨-, rfl, rfl⟩ := pop_run s h₁
  simp only [get_run, ok_bind, Lower.defineLocal, modifyState_run] at h
  split at h
  · rw [push_run] at h
    cases h
    exact hd.of_preds (predsAt_modify fun _ => rfl) (by simp) rfl
  · rw [pure_run] at h
    cases h
    exact hd.of_preds (predsAt_modify fun _ => rfl) (by simp) rfl

/-- Every instruction lowered from a formed state keeps it founded. -/
theorem instr (hd : s.Founded) (hf : s.Formed ok) {ins : Instr} (h : (Lower.instr ins).run s = .ok ((), s')) :
    s'.Founded := by
  unfold Lower.instr at h
  split at h
  case h_4 => exact hd.elseBranch hf h
  case h_5 => exact hd.endFrame hf h
  case h_6 =>
    simp only [StateT.run_bind, get_run, ok_bind] at h
    split at h
    · rw [pure_run] at h
      cases h
      exact hd
    rename_i hlive
    have hlive : s.unreachable = false := by simpa using hlive
    split at h
    · -- nop
      rw [pure_run] at h
      cases h
      exact hd
    · -- unreachable
      exact hd.terminate hf.cur_lt_states (fun e he => by cases he) h
    · exact hd.br hf hlive h
    · exact hd.brIf hf hlive h
    · exact hd.brTable hf hlive h
    · exact hd.returnTop hf.cur_lt_states h
    · -- drop
      obtain ⟨⟨l, s₁⟩, h₁, h⟩ := bind_eq_ok
        (show (Lower.pop 1).run s >>= (fun p => .ok ((), p.2)) = .ok ((), s') from h)
      obtain ⟨-, rfl, rfl⟩ := pop_run s h₁
      cases h
      exact hd.of_preds rfl (Nat.le_refl _) rfl
    · -- local.get
      simp only [StateT.run_bind, get_run, ok_bind] at h
      split at h
      · cases h
      simp only [StateT.run_bind, lookupFuel_run, get_run, ok_bind] at h
      obtain ⟨⟨v, s₁⟩, h₁, h⟩ := bind_eq_ok h
      have hres := hd.readLocal (Nat.le_of_eq hf.built.linked.sizes) h₁
      rw [push_run] at h
      cases h
      exact ((Calm.of_resolves hres).founded hd).of_preds rfl (Nat.le_refl _) rfl
    · -- local.set
      simp only [StateT.run_bind, get_run, ok_bind] at h
      split at h
      · cases h
      exact hd.setLocal _ h
    · -- local.tee
      simp only [StateT.run_bind, get_run, ok_bind] at h
      split at h
      · cases h
      exact hd.setLocal True h
    · exact hd.returnCall hf h
    · exact hd.returnCall hf h
    · exact (Calm.of_operator h).founded hd
  all_goals
    -- a block, a loop or an `if`: only counted in skipped code
    simp only [StateT.run_bind, get_run, ok_bind] at h
    split at h
    · rw [set_run] at h
      cases h
      exact hd.of_preds rfl (Nat.le_refl _) rfl
    split at h
    · exact hd.enter hf h
    · cases h

/-- A lowering with no edge and no open loop is founded. -/
theorem of_nil (hpreds : ∀ j, predsAt s.states j = []) (hframes : ∀ f ∈ s.frames, f.kind ≠ .loop) :
    s.Founded := by
  refine ⟨⟨fun _ => 0, fun j e he => ?_⟩, fun f hf hk => absurd hk (hframes f hf)⟩
  rw [hpreds j] at he
  cases he

/-- Setting up the entry block records no edge and opens only the function's frame. -/
theorem start {m : Module} {ps rs : List ValType} {locals : List LocalGroup}
    (h : (Lower.start locals).run { module := m, params := ps, results := rs } = .ok ((), s)) :
    s.Founded := by
  simp only [Lower.start, StateT.run_bind, newBlock_run, ok_bind, modify_run, get_run] at h
  obtain ⟨⟨⟨⟩, s₁⟩, h₁, h⟩ := bind_eq_ok h
  -- the entry block is sealed while there is no edge at all
  have hcalm₁ := Calm.of_resolves (Founded.sealBlock
    (of_nil (fun j => by cases j <;> rfl) fun f hf => by simp at hf) (by simp) h₁)
  -- the function's parameters and declared locals are defined in it
  obtain ⟨⟨⟨⟩, s₂⟩, h₂, h⟩ := bind_eq_ok h
  have hcalm₂ : Calm s₁ s₂ := by
    refine forIn_run_invariant (fun _ _ t => Calm s₁ t) ?_ (Calm.refl s₁) h₂
    rintro pre ⟨ty, i⟩ rest b t r t' - hcalm hstep
    simp only [StateT.run_bind] at hstep
    obtain ⟨⟨v, t₁⟩, hp, hstep⟩ := bind_eq_ok hstep
    rw [addParam_run] at hp
    cases hp
    simp only [Lower.defineLocal, modifyState_run, ok_bind, modify_run, pure_run] at hstep
    cases hstep
    exact ⟨_, rfl, hcalm.trans ⟨predsAt_modify fun _ => rfl, by simp, rfl, rfl⟩⟩
  obtain ⟨⟨⟨⟩, s₃⟩, h₃, h⟩ := bind_eq_ok h
  have hcalm₃ : Calm s₁ s₃ := by
    refine forIn_run_invariant (fun _ _ t => Calm s₁ t) ?_ hcalm₂ h₃
    rintro pre g rest b t r t' - hcalm hstep
    simp only [StateT.run_bind, get_run, ok_bind] at hstep
    split at hstep
    · cases hstep
    split at hstep
    · obtain ⟨⟨⟨⟩, t₄⟩, h₄, hstep⟩ := bind_eq_ok hstep
      cases hstep
      rw [Std.Legacy.Range.forIn_eq_forIn_range'] at h₄
      refine ⟨_, rfl, forIn_run_invariant (fun _ _ u => Calm s₁ u) ?_ hcalm h₄⟩
      rintro pre' k rest' b' u r' u' - hcalmu hstep
      simp only [StateT.run_bind, get_run, modify_run, ok_bind] at hstep
      obtain ⟨⟨vs, u₁⟩, he, hstep⟩ := bind_eq_ok hstep
      obtain ⟨picks, -, rfl, -⟩ := Lower.emit_picks he
      simp only [Lower.defineLocal, modifyState_run, ok_bind, pure_run] at hstep
      cases hstep
      exact ⟨_, rfl, hcalmu.trans ⟨predsAt_modify fun _ => rfl, by simp, rfl, rfl⟩⟩
    · cases hstep
  -- the function's frame
  cases h
  have hcalm := hcalm₁.trans hcalm₃
  refine of_nil (fun j => ?_) fun f hf => ?_
  · calc predsAt s₃.states j = predsAt _ j := congrFun hcalm.preds j
      _ = [] := by cases j <;> rfl
  · rcases Array.mem_push.mp hf with hf | rfl
    · rw [hcalm.frames] at hf
      simp at hf
    · simp

end Founded

end Lowering

namespace Lowers

variable {m : Module} {sig : FuncType} {locals : List LocalGroup} {pre : List Instr} {s : Lowering}

/-- Every state a lowering reaches is founded. -/
theorem founded (h : Lowers m sig locals pre s) : s.Founded := by
  induction h with
  | start h => exact Lowering.Founded.start h
  | @step pre s s' ins hl _ hstep ih =>
    obtain ⟨hf, -⟩ : s.Formed (fun _ => True) ∧ _ :=
      hl.formed (fun _ _ _ => trivial) fun _ _ => ⟨trivial, trivial, trivial⟩
    exact ih.instr hf hstep

/-- In every state a lowering reaches, reading any local from any block, with the fuel the
lowering gives, returns a value, and sealing any block succeeds; both only resolve locals. -/
theorem lookup_settles (h : Lowers m sig locals pre s) :
    (∀ blk idx, ∃ v s', (lookupFuel >>= fun fuel => readLocal fuel blk idx).run s = .ok (v, s') ∧
      s.Resolves s') ∧
      ∀ blk, ∃ s', (sealBlock blk).run s = .ok ((), s') ∧ s.Resolves s' := by
  obtain ⟨r, hr⟩ := h.founded.ranked
  obtain ⟨hf, -⟩ : s.Formed (fun _ => True) ∧ _ :=
    h.formed (fun _ _ _ => trivial) fun _ _ => ⟨trivial, trivial, trivial⟩
  have hsizes := Nat.le_of_eq hf.built.linked.sizes
  exact ⟨fun blk idx => Lowering.readLocal_settles hr hsizes blk idx,
    fun blk => Lowering.sealBlock_settles hr hsizes blk⟩

end Lowers

/-- A body whose loop reads a parameter and branches back on it: `loop`, `local.get 0`,
`br_if 0`, `end`, and the function's `end`. -/
def loopReadCode : List Instr :=
  [⟨0x03, some (.block (-64)), 0⟩, ⟨0x20, some (.localVar 0), 2⟩, ⟨0x0d, some (.branch 0), 4⟩,
    ⟨0x0b, none, 6⟩, ⟨0x0b, none, 7⟩]

theorem loopReadCode_lookups_settle :
    ∃ s, Lowers {} ⟨[.i32], []⟩ [] loopReadCode s ∧
      (∀ blk idx, ∃ v s', (lookupFuel >>= fun fuel => readLocal fuel blk idx).run s = .ok (v, s') ∧
        s.Resolves s') ∧
      ∀ blk, ∃ s', (sealBlock blk).run s = .ok ((), s') ∧ s.Resolves s' := by
  have hbody : (Body.ofCode {} ⟨[.i32], []⟩ [] loopReadCode).toOption.isSome = true := by cbv
  cases hof : Body.ofCode {} ⟨[.i32], []⟩ [] loopReadCode with
  | error e =>
    rw [hof] at hbody
    cases hbody
  | ok body =>
    unfold Body.ofCode at hof
    obtain ⟨⟨⟨⟩, s⟩, hrun, -⟩ := bind_eq_ok hof
    obtain ⟨hl, -⟩ := Lower.run_lowers hrun
    exact ⟨s, hl, Lowers.lookup_settles hl⟩

end WasmImage.Ssa
