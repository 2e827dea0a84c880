import WasmImage.Proofs.LowerValues
import WasmImage.Proofs.LowerEdges

/-!
# The body built while lowering

What holds, in every run, of the body a lowering has built so far (`Lowering.Built`): every value
named is made, every edge is recorded once in the block it goes to, parameters, operators and
picks are in their places, every return carries one value per result of the function, and every
operator is one that `ok` allows. It says nothing of how many arguments an edge passes, which
`Coherent` does: an `if` without `else` passes its parameters to the block that takes its
results.

Each primitive step keeps it, and *advances* the lowering (`Lowering.Advances`): blocks are only
added, a terminator once given stays, with arguments only added to its edges, a sealed block
stays sealed, and only the blocks a step names are ended.
-/

namespace WasmImage.Ssa

open Wasm Lower

/-- Every terminator of `bs` is one of `bs'`, with arguments only added to its edges. -/
def KeepsTerms (bs bs' : Array Block) : Prop :=
  ∀ j t, termAt bs j = some t → ∃ t', termAt bs' j = some t' ∧ t'.shape = t.shape

namespace KeepsTerms

variable {bs bs' bs'' : Array Block}

theorem refl (bs : Array Block) : KeepsTerms bs bs := fun _ t h => ⟨t, h, rfl⟩

theorem trans (h : KeepsTerms bs bs') (h' : KeepsTerms bs' bs'') : KeepsTerms bs bs'' := by
  intro j t ht
  obtain ⟨t', ht', hs'⟩ := h j t ht
  obtain ⟨t'', ht'', hs''⟩ := h' j t' ht'
  exact ⟨t'', ht'', hs''.trans hs'⟩

theorem of_eq (h : termAt bs' = termAt bs) : KeepsTerms bs bs' := fun _ t ht => ⟨t, h ▸ ht, rfl⟩

theorem of_shape (h : ∀ j, (termAt bs' j).map (·.shape) = (termAt bs j).map (·.shape)) :
    KeepsTerms bs bs' := by
  intro j t ht
  have hj := h j
  rw [ht] at hj
  obtain ⟨t', ht', hshape⟩ := Option.map_eq_some_iff.mp hj
  exact ⟨t', ht', hshape⟩

/-- Ending a block that has no terminator yet. -/
theorem setTerm {j : Nat} (hj : j < bs.size) (hopen : termAt bs j = none) (t : Terminator) :
    KeepsTerms bs (bs.modify j fun b => { b with term := some t }) := by
  intro i t' ht'
  refine ⟨t', ?_, rfl⟩
  rw [termAt_setTerm hj, if_neg]
  · exact ht'
  · rintro rfl
    rw [hopen] at ht'
    cases ht'

end KeepsTerms

namespace Lowering

variable {s s' : Lowering} {ok : Operator → Prop}

/-- `s'` comes from `s` by steps that end only blocks among `ended`: blocks are only added, a
block not ended and not among `ended` stays so, a terminator given stays, with arguments only
added to its edges, a sealed block stays sealed, and the function's results stay. -/
structure Advances (ended : List Nat) (s s' : Lowering) : Prop where
  size : s.blocks.size ≤ s'.blocks.size
  unended : ∀ j < s.blocks.size, termAt s.blocks j = none → j ∉ ended → termAt s'.blocks j = none
  keeps : KeepsTerms s.blocks s'.blocks
  sealed : ∀ j, sealedAt s.states j = true → sealedAt s'.states j = true
  results : s'.results = s.results

namespace Advances

theorem refl (s : Lowering) : Advances [] s s :=
  ⟨Nat.le_refl _, fun _ _ h _ => h, .refl _, fun _ h => h, rfl⟩

theorem trans {E E' : List Nat} {s₁ s₂ s₃ : Lowering} (h : Advances E s₁ s₂) (h' : Advances E' s₂ s₃) :
    Advances (E ++ E') s₁ s₃ := by
  refine ⟨Nat.le_trans h.size h'.size, fun j hj hnone hE => ?_, h.keeps.trans h'.keeps,
    fun j hj => h'.sealed j (h.sealed j hj), h'.results.trans h.results⟩
  rw [List.mem_append, not_or] at hE
  exact h'.unended j (Nat.lt_of_lt_of_le hj h.size) (h.unended j hj hnone hE.1) hE.2

theorem mono {E E' : List Nat} (h : Advances E s s') (hE : ∀ j ∈ E, j ∈ E') : Advances E' s s' :=
  { h with unended := fun j hj hnone hE' => h.unended j hj hnone fun hm => hE' (hE j hm) }

/-- Steps that change neither the blocks' terminators and number nor which blocks are sealed. -/
theorem of_same (hsize : s.blocks.size ≤ s'.blocks.size) (hterm : termAt s'.blocks = termAt s.blocks)
    (hsealed : sealedAt s'.states = sealedAt s.states) (hresults : s'.results = s.results) :
    Advances [] s s' :=
  ⟨hsize, fun j _ hnone _ => by rw [hterm]; exact hnone, .of_eq hterm, fun j hj => by rw [hsealed]; exact hj,
    hresults⟩

/-- Resolving locals and sealing the blocks among `S`. -/
theorem of_grows {S : List Nat} (h : Grows S s s') (hS : ∀ j ∈ S, sealedAt s'.states j = true) :
    Advances [] s s' := by
  have hm := Moves.of_grows h
  refine ⟨hm.size, fun j hj hnone _ => (hm.term j hj).mpr ⟨hnone, by simp⟩, .of_shape h.shape,
    fun j hj => ?_, by obtain ⟨_, _, _, h'⟩ := h.rest; rw [h']⟩
  by_cases hj' : j ∈ S
  · exact hS j hj'
  · rw [h.sealed j hj']
    exact hj

end Advances

/-! ## The edges while lowering -/

namespace Linked

/-- A step that changes no terminator and no edge recorded, and only adds blocks. -/
theorem congr (hl : s.Linked) (hterm : termAt s'.blocks = termAt s.blocks)
    (hpreds : predsAt s'.states = predsAt s.states) (hsizes : s'.states.size = s'.blocks.size)
    (hsize : s.blocks.size ≤ s'.blocks.size) (hret : s'.retBlock = s.retBlock) : s'.Linked := by
  have hedge : edgeAt s'.blocks = edgeAt s.blocks := by
    funext e
    simp only [edgeAt, hterm]
  refine ⟨hsizes, fun e t he => ?_, fun j e => ?_, fun j => ?_, fun r hr => ?_⟩
  · rw [hedge] at he
    exact Nat.lt_of_lt_of_le (hl.targets e t he) hsize
  · rw [hpreds, hedge]
    exact hl.preds j e
  · rw [hpreds]
    exact hl.nodup j
  · rw [hret] at hr
    obtain ⟨hr, vals, hvals⟩ := hl.ret r hr
    exact ⟨Nat.lt_of_lt_of_le hr hsize, vals, by rw [hterm]; exact hvals⟩

/-- Ending block `j`, not ended so far, and recording the edges of its terminator. -/
theorem link (hl : s.Linked) {j : Nat} (hj : j < s.blocks.size) (hopen : termAt s.blocks j = none)
    {t : Terminator} (htargets : ∀ e ∈ t.successors, e.block < s.blocks.size) :
    ({ s with
        blocks := s.blocks.modify j fun b => { b with term := some t }
        states := linkEdges j t.successors.zipIdx s.states } : Lowering).Linked := by
  have hzip : ∀ p ∈ t.successors.zipIdx, p.1.block < s.states.size :=
    forall_mem_zipIdx fun e he => hl.sizes ▸ htargets e he
  -- no edge leaves block `j` before it is ended
  have hnone : ∀ e : PredEdge, e.src = j → edgeAt s.blocks e = none := by
    intro e he
    simp [edgeAt, he, hopen]
  refine ⟨?_, fun e tgt he => ?_, fun i e => ?_, fun i => ?_, fun r hr => ?_⟩
  · simp [size_linkEdges, hl.sizes]
  · simp only [edgeAt_setTerm hj] at he
    split at he
    · simpa using htargets tgt (List.mem_of_getElem? he)
    · simpa using hl.targets e tgt he
  · simp only [predsAt_linkEdges j _ _ hzip, edgeAt_setTerm hj, List.mem_append, mem_linked]
    by_cases he : e.src = j
    · have hold : e ∉ predsAt s.states i := fun hmem => by
        simpa [hnone e he] using (hl.preds i e).mp hmem
      simp [he, hold]
    · simp [he, hl.preds i e]
  · simp only [predsAt_linkEdges j _ _ hzip]
    refine List.Nodup.append (hl.nodup i) nodup_linked fun e hold hnew => ?_
    have hsrc := (mem_linked.mp hnew).1
    simpa [hnone e hsrc] using (hl.preds i e).mp hold
  · obtain ⟨hr, vals, hvals⟩ := hl.ret r hr
    have hne : j ≠ r := fun h => by
      rw [← h, hopen] at hvals
      cases hvals
    exact ⟨by simpa using hr, vals, by simp [termAt_setTerm hj, hne, hvals]⟩

end Linked

/-! ## The body built so far -/

/-- The body built so far, in every run: every value named is made, every edge is recorded once
where it goes, parameters, operators and picks are in their places, every return carries one
value per result, and every operator is one `ok` allows. -/
structure Built (ok : Operator → Prop) (s : Lowering) : Prop where
  linked : s.Linked
  bounded : s.Bounded
  made : s.Made fun _ => []
  rets : ∀ j vals, termAt s.blocks j = some (.ret vals) → vals.length = s.results.length
  ops : ∀ (v : Nat) (o : Operator) (args : List Nat) (ts : List ValType),
    s.values[v]? = some (.operator o args ts) → ok o

namespace Built

/-- Changing only the operand stack and the control state, when the values on the new stack and
in the new frames are made. -/
theorem of_control (hb : s.Built ok) (hblocks : s'.blocks = s.blocks) (hvalues : s'.values = s.values)
    (hstates : s'.states = s.states) (hresults : s'.results = s.results)
    (hret : s'.retBlock = s.retBlock) (hstack : ∀ v ∈ s'.stack, v < s.values.size)
    (hspare : ∀ v ∈ s'.spare, v < s.values.size)
    (helse : ∀ f ∈ s'.frames, ∀ v ∈ f.elseArgs, v < s.values.size) : s'.Built ok := by
  obtain ⟨_, _, _, _, _, _, _, _, _, _, _, _, _, _⟩ := s'
  dsimp only at hblocks hvalues hstates hresults hret hstack hspare helse
  subst hblocks hvalues hstates hresults hret
  exact ⟨⟨hb.linked.sizes, hb.linked.targets, hb.linked.preds, hb.linked.nodup, hb.linked.ret⟩,
    ⟨hstack, hspare, helse, hb.bounded.blocks, hb.bounded.states, hb.bounded.operands⟩,
    hb.made.congr rfl rfl rfl rfl rfl, hb.rets, hb.ops⟩

theorem newBlock (hb : s.Built ok) :
    ({ s with blocks := s.blocks.push {}, states := s.states.push {} } : Lowering).Built ok := by
  refine ⟨hb.linked.congr (by simp) (by simp) (by simp [hb.linked.sizes]) (by simp) rfl,
    ⟨hb.bounded.stack, hb.bounded.spare, hb.bounded.elseArgs, fun b hb' => ?_, fun st hst => ?_, hb.bounded.operands⟩,
    hb.made.newBlock, by simpa using hb.rets, hb.ops⟩
  · rcases Array.mem_push.mp hb' with hb' | rfl
    · exact hb.bounded.blocks _ hb'
    · exact ⟨by simp, by simp, by simp⟩
  · rcases Array.mem_push.mp hst with hst | rfl
    · exact hb.bounded.states _ hst
    · exact ⟨by simp, by simp⟩

/-- A parameter added to block `blk`, after the others. -/
theorem addParam (hb : s.Built ok) {blk : Nat} (hblk : blk < s.blocks.size) (t : ValType) :
    ({ s with
        values := s.values.push (.param blk (s.blocks[blk]?.getD {}).params.size t)
        blocks := s.blocks.modify blk fun b => { b with params := b.params.push s.values.size } } :
      Lowering).Built ok := by
  refine ⟨hb.linked.congr (by simp) rfl (by simp [hb.linked.sizes]) (by simp) rfl, ?_,
    hb.made.addParam hblk t, fun j vals hj => hb.rets j vals (by simpa using hj),
    fun v o args ts hv => ?_⟩
  · refine (hb.bounded.pushValue _ (by simp [ValueDef.operands])).modifyBlock blk ?_
    intro b hbelow
    refine ⟨fun w hw => ?_, hbelow.2.1, hbelow.2.2⟩
    rcases Array.mem_push.mp hw with hw | rfl
    · exact hbelow.1 w hw
    · simp
  · rw [Array.getElem?_push] at hv
    split at hv
    · cases hv
    · exact hb.ops v o args ts hv

/-- An operator that `ok` allows, applied to values made, run in the current block. -/
theorem emit (hb : s.Built ok) (hcur : s.cur < s.blocks.size) {o : Operator} {args : List Nat}
    {results : List ValType} (hargs : ∀ v ∈ args, v < s.values.size) (ho : ok o)
    {picks : Array ValueDef}
    (hpicks : ∀ d ∈ picks, ∃ i t, d = .pick s.values.size i t ∧ i < results.length ∧ 2 ≤ results.length) :
    ({ s with
        values := s.values.push (.operator o args results) ++ picks
        blocks := s.blocks.modify s.cur fun b => { b with insts := b.insts.push s.values.size } } :
      Lowering).Built ok := by
  have hle : s.values.size < (s.values.push (.operator o args results) ++ picks).size := by
    simp only [Array.size_append, Array.size_push]
    omega
  have hb' : s.Bounded := hb.bounded
  refine ⟨hb.linked.congr (by simp) rfl (by simp [hb.linked.sizes]) (by simp) rfl,
    ⟨fun v hv => Nat.lt_trans (hb'.stack v hv) hle, fun v hv => Nat.lt_trans (hb'.spare v hv) hle,
      fun f hf v hv => Nat.lt_trans (hb'.elseArgs f hf v hv) hle,
      ?_, fun st hst => (hb'.states st hst).mono hle.le, ?_⟩,
    hb.made.emit hcur hpicks, fun j vals hj => hb.rets j vals (by simpa using hj), ?_⟩
  · dsimp only
    refine forall_mem_modify (fun b hb'' => (hb'.blocks b hb'').mono hle.le) ?_ s.cur
    intro b hbelow
    refine ⟨hbelow.1, fun w hw => ?_, hbelow.2.2⟩
    rcases Array.mem_push.mp hw with hw | rfl
    · exact hbelow.2.1 w hw
    · exact hle
  · intro d hd v hv
    rcases Array.mem_append.mp hd with hd | hd
    · rcases Array.mem_push.mp hd with hd | rfl
      · exact Nat.lt_trans (hb'.operands d hd v hv) hle
      · exact Nat.lt_trans (hargs v hv) hle
    · obtain ⟨i, t, rfl, -⟩ := hpicks d hd
      simp [ValueDef.operands] at hv
  · intro v o' args' ts hv
    dsimp only at hv
    rw [Array.push_eq_append, Array.append_assoc, Array.getElem?_append] at hv
    split at hv
    · exact hb.ops v o' args' ts hv
    · rw [Array.getElem?_append] at hv
      split at hv
      · simp only [List.size_toArray, List.length_cons, List.length_nil] at *
        rw [Array.getElem?_singleton] at hv
        split at hv
        · cases hv
          exact ho
        · cases hv
      · obtain ⟨i, t, hd, -⟩ := hpicks _ (Array.mem_of_getElem? hv)
        cases hd

/-- A local of block `blk` given a value already made. -/
theorem defineLocal (hb : s.Built ok) (blk : Nat) (idx : UInt32) {v : Nat} (hv : v < s.values.size) :
    ({ s with states := s.states.modify blk fun st => { st with defs := st.defs.insert idx v } } :
      Lowering).Built ok := by
  have hg : Grows [] s { s with states := s.states.modify blk fun st => { st with defs := st.defs.insert idx v } } :=
    Grows.modifyState s blk fun _ => ⟨rfl, rfl⟩
  exact ⟨hb.linked.grows hg, hb.bounded.modifyState blk fun st hst => BlockState.Below.define hst idx hv,
    hb.made.setStates (pendingAt_modify fun _ => rfl) (sealedAt_modify fun _ => rfl), hb.rets, hb.ops⟩

/-- Ending block `j`, not ended so far, with a terminator whose targets exist and whose values are
made, that returns one value per result; its edges are recorded where they go. -/
theorem link (hb : s.Built ok) {j : Nat} (hj : j < s.blocks.size) (hopen : termAt s.blocks j = none)
    {t : Terminator} (htargets : ∀ e ∈ t.successors, e.block < s.blocks.size)
    (hbelow : t.Below s.values.size) (hret : ∀ vals, t = .ret vals → vals.length = s.results.length) :
    ({ s with
        blocks := s.blocks.modify j fun b => { b with term := some t }
        states := linkEdges j t.successors.zipIdx s.states } : Lowering).Built ok := by
  refine ⟨hb.linked.link hj hopen htargets, ⟨hb.bounded.stack, hb.bounded.spare, hb.bounded.elseArgs, ?_, ?_,
    hb.bounded.operands⟩, ?_, fun i vals hi => ?_, hb.ops⟩
  · refine @forall_mem_modify Block (Block.Below s.values.size) s.blocks hb.bounded.blocks
      (fun b => { b with term := some t }) (fun b hbl => ⟨hbl.1, hbl.2.1, fun t' ht' => ?_⟩) j
    cases ht'
    exact hbelow
  · exact forall_mem_linkEdges j (fun _ _ hst => hst) _ _ hb.bounded.states
  · exact hb.made.congr rfl (paramAt_modify fun _ => rfl) (instsOf_modify fun _ => rfl)
      (pendingAt_linkEdges ..) (sealedAt_linkEdges ..)
  · simp only [termAt_setTerm hj] at hi
    split at hi
    · exact hret vals (Option.some.inj hi)
    · exact hb.rets i vals hi

/-- Resolving locals and sealing keep the body built, once the values they make are accounted
for. -/
theorem grows {S : List Nat} (hb : s.Built ok) (hg : Grows S s s') (hbd : s'.Bounded)
    (hm : s'.Made fun _ => []) (hsame : SameOps s.values s'.values) : s'.Built ok := by
  refine ⟨hb.linked.grows hg, hbd, hm, fun j vals hj => ?_, fun v o args ts hv => ?_⟩
  · obtain ⟨bs, vs, sts, rfl⟩ := hg.rest
    exact hb.rets j vals (termAt_ret_of_shape (fun i => (hg.shape i).symm) hj)
  · exact hb.ops v o args ts (hsame.old v _ hv rfl)

theorem readLocal (hb : s.Built ok) {fuel blk : Nat} {idx : UInt32} {v : Nat}
    (hblk : blk < s.blocks.size) (hret : s.retBlock ≠ some blk)
    (h : (readLocal fuel blk idx).run s = .ok (v, s')) :
    s'.Built ok ∧ Grows [] s s' ∧ v < s'.values.size := by
  obtain ⟨hg, hbd, hm, hsame, hv⟩ :=
    (resolvesMade fuel).1 blk idx s v s' _ hb.linked hb.bounded hb.made hblk hret h
  exact ⟨hb.grows hg hbd hm hsame, hg, hv⟩

theorem sealBlock (hb : s.Built ok) {blk : Nat} (hblk : blk < s.blocks.size)
    (h : (sealBlock blk).run s = .ok ((), s')) :
    s'.Built ok ∧ Grows [blk] s s' ∧ sealedAt s'.states blk = true := by
  obtain ⟨hg, hbd, hm, hsame, hsealed⟩ := sealBlock_made hb.linked hb.bounded hb.made hblk h
  exact ⟨hb.grows hg hbd hm hsame, hg, hsealed⟩

end Built

end Lowering

end WasmImage.Ssa
