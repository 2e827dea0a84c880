import WasmImage.Proofs.LowerSteps

/-!
# Resolving locals during lowering

Reading a local in a block may ask the block's predecessors, add a parameter to the block and
pass the local's value along every edge into it (`readLocal`, `addPredArgs`); sealing a block
completes the parameters made for reads while its predecessors were still unknown
(`sealBlock`). These steps leave the control state alone: they only add values, parameters of
sealed blocks and arguments to the edges into them (`Grows`). They keep every value the
lowering refers to made (`Bounded`), and every edge passing one argument per parameter of its
target (`Arity`): a block gains a parameter together with one argument pending on each edge
into it, and `addPredArgs` supplies those one edge at a time.
-/

namespace WasmImage.Ssa

open Wasm Lower

/-! ## Values below a bound -/

/-- Every value a terminator passes or returns is below `n`. -/
def Terminator.Below (n : Nat) (t : Terminator) : Prop :=
  (∀ vals, t = .ret vals → ∀ v ∈ vals, v < n) ∧ ∀ e ∈ t.successors, ∀ v ∈ e.args, v < n

/-- Every value a block holds is below `n`. -/
def Block.Below (n : Nat) (b : Block) : Prop :=
  (∀ v ∈ b.params, v < n) ∧ (∀ v ∈ b.insts, v < n) ∧ ∀ t ∈ b.term, t.Below n

/-- Every value lowering remembers for a block is below `n`. -/
def BlockState.Below (n : Nat) (st : BlockState) : Prop :=
  (∀ (k : UInt32) v, st.defs[k]? = some v → v < n) ∧ ∀ p ∈ st.incomplete, p.1 < n

section Below

variable {n m : Nat}

theorem Terminator.Below.mono {t : Terminator} (h : t.Below n) (hnm : n ≤ m) : t.Below m :=
  ⟨fun vals hv v hmem => Nat.lt_of_lt_of_le (h.1 vals hv v hmem) hnm,
    fun e he v hv => Nat.lt_of_lt_of_le (h.2 e he v hv) hnm⟩

theorem Block.Below.mono {b : Block} (h : b.Below n) (hnm : n ≤ m) : b.Below m :=
  ⟨fun v hv => Nat.lt_of_lt_of_le (h.1 v hv) hnm, fun v hv => Nat.lt_of_lt_of_le (h.2.1 v hv) hnm,
    fun t ht => (h.2.2 t ht).mono hnm⟩

theorem BlockState.Below.mono {st : BlockState} (h : st.Below n) (hnm : n ≤ m) : st.Below m :=
  ⟨fun k v hv => Nat.lt_of_lt_of_le (h.1 k v hv) hnm, fun p hp => Nat.lt_of_lt_of_le (h.2 p hp) hnm⟩

theorem Terminator.shape_eq_ret {t : Terminator} {vals : List Nat} :
    t.shape = .ret vals ↔ t = .ret vals := by
  cases t <;> simp [shape]

theorem mem_modify_of {α : Type} {l : List α} {i : Nat} {f : α → α} {x : α} (hx : x ∈ l.modify i f) :
    ∃ y ∈ l, x = y ∨ x = f y := by
  obtain ⟨k, hk⟩ := List.mem_iff_getElem?.mp hx
  rw [List.getElem?_modify] at hk
  cases hy : l[k]? with
  | none => simp [hy] at hk
  | some y =>
    rw [hy] at hk
    refine ⟨y, List.mem_of_getElem? hy, ?_⟩
    simp only [Option.map_eq_map, Option.map_some, Option.some.injEq] at hk
    split at hk
    · exact .inr hk.symm
    · exact .inl hk.symm

theorem Terminator.Below.addArg {t : Terminator} (h : t.Below n) (i : Nat) {v : Nat} (hv : v < n) :
    (t.addArg i v).Below n := by
  refine ⟨fun vals hvals => ?_, fun e he a ha => ?_⟩
  · have hret : t = .ret vals := by
      rw [← Terminator.shape_eq_ret, ← Terminator.shape_addArg t i v, hvals]
      rfl
    exact h.1 vals hret
  · rw [Terminator.successors_addArg] at he
    obtain ⟨e₀, he₀, heq | heq⟩ := mem_modify_of he
    · exact h.2 e₀ he₀ a (heq ▸ ha)
    · simp only [heq, Target.withArg, List.mem_append, List.mem_singleton] at ha
      rcases ha with ha | rfl
      · exact h.2 e₀ he₀ a ha
      · exact hv

end Below

/-- Each edge passes as many arguments as its target has parameters, but for the `pending e`
arguments it has yet to receive. -/
def Arity (bs : Array Block) (pending : PredEdge → Nat) : Prop :=
  ∀ e t, edgeAt bs e = some t → t.args.length + pending e = paramCount bs t.block

namespace Lowering

/-- Every value the lowering refers to has been made. -/
structure Bounded (s : Lowering) : Prop where
  stack : ∀ v ∈ s.stack, v < s.values.size
  spare : ∀ v ∈ s.spare, v < s.values.size
  elseArgs : ∀ f ∈ s.frames, ∀ v ∈ f.elseArgs, v < s.values.size
  blocks : ∀ b ∈ s.blocks, b.Below s.values.size
  states : ∀ st ∈ s.states, st.Below s.values.size
  operands : ∀ d ∈ s.values, ∀ v ∈ d.operands, v < s.values.size

/-- The edges of a lowering: each goes to a block that exists, each block records exactly the
edges into it, once each, and the block that returns, once made, returns. -/
structure Linked (s : Lowering) : Prop where
  sizes : s.states.size = s.blocks.size
  targets : ∀ e t, edgeAt s.blocks e = some t → t.block < s.blocks.size
  preds : ∀ j e, e ∈ predsAt s.states j ↔ (edgeAt s.blocks e).map (·.block) = some j
  nodup : ∀ j, (predsAt s.states j).Nodup
  ret : ∀ r, s.retBlock = some r → r < s.blocks.size ∧ ∃ vals, termAt s.blocks r = some (.ret vals)


/-- `s'` comes from `s` by resolving locals: the same control state, and the same blocks and
edges, with values added, parameters added only to sealed blocks or to blocks among `sealing`,
and blocks among `sealing` sealed. The block that returns keeps its parameters. -/
structure Grows (sealing : List Nat) (s s' : Lowering) : Prop where
  rest : ∃ bs vs sts, s' = { s with blocks := bs, values := vs, states := sts }
  values : s.values.size ≤ s'.values.size
  blocks : s'.blocks.size = s.blocks.size
  states : s'.states.size = s.states.size
  shape : ∀ j, (termAt s'.blocks j).map (·.shape) = (termAt s.blocks j).map (·.shape)
  preds : predsAt s'.states = predsAt s.states
  sealed : ∀ j, j ∉ sealing → sealedAt s'.states j = sealedAt s.states j
  params : ∀ j, sealedAt s.states j = false → j ∉ sealing →
    paramCount s'.blocks j = paramCount s.blocks j
  ret : ∀ r, s.retBlock = some r → r ∉ sealing → paramCount s'.blocks r = paramCount s.blocks r


variable {s s' : Lowering}

/-! ## Keeping values made -/

namespace Bounded

theorem pushValue (h : s.Bounded) (d : ValueDef) (hd : ∀ v ∈ d.operands, v < s.values.size) :
    ({ s with values := s.values.push d } : Lowering).Bounded := by
  have hle : s.values.size ≤ (s.values.push d).size := by simp
  refine ⟨fun v hv => ?_, fun v hv => ?_, fun f hf v hv => ?_, fun b hb => (h.blocks b hb).mono hle,
    fun st hst => (h.states st hst).mono hle, fun d' hd' v hv => ?_⟩
  · exact Nat.lt_of_lt_of_le (h.stack v hv) hle
  · exact Nat.lt_of_lt_of_le (h.spare v hv) hle
  · exact Nat.lt_of_lt_of_le (h.elseArgs f hf v hv) hle
  · rcases Array.mem_push.mp hd' with hd' | rfl
    · exact Nat.lt_of_lt_of_le (h.operands d' hd' v hv) hle
    · exact Nat.lt_of_lt_of_le (hd v hv) hle

/-- The `else` arguments of every frame stay made when a frame whose own are made is pushed. -/
theorem elseArgs_push (h : s.Bounded) {fr : Frame} (hfr : ∀ v ∈ fr.elseArgs, v < s.values.size) :
    ∀ f ∈ s.frames.push fr, ∀ v ∈ f.elseArgs, v < s.values.size := by
  intro f hf v hv
  rcases Array.mem_push.mp hf with hf | rfl
  · exact h.elseArgs f hf v hv
  · exact hfr v hv

theorem modifyBlock (h : s.Bounded) (i : Nat) {f : Block → Block}
    (hf : ∀ b, b.Below s.values.size → (f b).Below s.values.size) :
    ({ s with blocks := s.blocks.modify i f } : Lowering).Bounded :=
  { h with blocks := forall_mem_modify h.blocks hf i }

theorem modifyState (h : s.Bounded) (i : Nat) {f : BlockState → BlockState}
    (hf : ∀ st, st.Below s.values.size → (f st).Below s.values.size) :
    ({ s with states := s.states.modify i f } : Lowering).Bounded :=
  { h with states := forall_mem_modify h.states hf i }

/-- A value made earlier becomes the next parameter of a block. -/
theorem completeParam (h : s.Bounded) (blk : Nat) {v : Nat} (hv : v < s.values.size)
    (g : ValueDef → ValueDef) (hg : ∀ d, (g d).operands = d.operands) :
    ({ s with
        values := s.values.modify v g
        blocks := s.blocks.modify blk fun b => { b with params := b.params.push v } } : Lowering).Bounded := by
  have hsize : (s.values.modify v g).size = s.values.size := Array.size_modify
  have hv' : v < (s.values.modify v g).size := hsize ▸ hv
  refine ⟨?_, ?_, ?_, ?_, ?_, ?_⟩
  · simpa [hsize] using h.stack
  · simpa [hsize] using h.spare
  · simpa [hsize] using h.elseArgs
  · dsimp only
    refine forall_mem_modify (fun b hb => (h.blocks b hb).mono hsize.ge) (fun b hbelow => ?_) blk
    refine ⟨fun w hw => ?_, hbelow.2.1, hbelow.2.2⟩
    rcases Array.mem_push.mp hw with hw | rfl
    · exact hbelow.1 w hw
    · exact hv'
  · simpa [hsize] using h.states
  · rw [hsize]
    exact forall_mem_modify h.operands (fun d hd => by rwa [hg]) v

end Bounded

theorem BlockState.Below.define {n : Nat} {st : BlockState} (h : st.Below n) (idx : UInt32) {v : Nat}
    (hv : v < n) : ({ st with defs := st.defs.insert idx v } : BlockState).Below n := by
  refine ⟨fun k w hw => ?_, h.2⟩
  rw [Std.HashMap.getElem?_insert] at hw
  split at hw
  · cases hw
    exact hv
  · exact h.1 k w hw

/-! ## Steps that resolve locals -/

namespace Grows

theorem refl (S : List Nat) (s : Lowering) : Grows S s s :=
  ⟨⟨_, _, _, rfl⟩, Nat.le_refl _, rfl, rfl, fun _ => rfl, rfl, fun _ _ => rfl, fun _ _ _ => rfl,
    fun _ _ _ => rfl⟩

theorem trans {S T : List Nat} {s₁ s₂ s₃ : Lowering} (h₁ : Grows S s₁ s₂) (h₂ : Grows T s₂ s₃) :
    Grows (S ++ T) s₁ s₃ := by
  obtain ⟨bs₂, vs₂, sts₂, rfl⟩ := h₁.rest
  obtain ⟨bs₃, vs₃, sts₃, rfl⟩ := h₂.rest
  refine ⟨⟨_, _, _, rfl⟩, Nat.le_trans h₁.values h₂.values, h₂.blocks.trans h₁.blocks,
    h₂.states.trans h₁.states, fun j => (h₂.shape j).trans (h₁.shape j), h₂.preds.trans h₁.preds,
    fun j hj => ?_, fun j hj hS => ?_, fun r hr hS => ?_⟩
  · rw [List.mem_append, not_or] at hj
    exact (h₂.sealed j hj.2).trans (h₁.sealed j hj.1)
  · rw [List.mem_append, not_or] at hS
    have hj' : sealedAt sts₂ j = false := (h₁.sealed j hS.1).trans hj
    exact (h₂.params j hj' hS.2).trans (h₁.params j hj hS.1)
  · rw [List.mem_append, not_or] at hS
    exact (h₂.ret r hr hS.2).trans (h₁.ret r hr hS.1)

theorem pushValue (s : Lowering) (d : ValueDef) : Grows [] s { s with values := s.values.push d } :=
  ⟨⟨_, _, _, rfl⟩, by simp, rfl, rfl, fun _ => rfl, rfl, fun _ _ => rfl, fun _ _ _ => rfl,
    fun _ _ _ => rfl⟩

/-- A change to the states of blocks that keeps their edges and whether they are sealed. -/
theorem modifyState (s : Lowering) (i : Nat) {f : BlockState → BlockState}
    (hf : ∀ st, (f st).preds = st.preds ∧ (f st).sealed = st.sealed) :
    Grows [] s { s with states := s.states.modify i f } :=
  ⟨⟨_, _, _, rfl⟩, Nat.le_refl _, rfl, Array.size_modify, fun _ => rfl,
    predsAt_modify fun st => (hf st).1, fun j _ => by rw [sealedAt_modify fun st => (hf st).2],
    fun _ _ _ => rfl, fun _ _ _ => rfl⟩

/-- An argument added to an edge. -/
theorem addArg (s : Lowering) (p : PredEdge) (v : Nat) :
    Grows [] s { s with blocks := s.blocks.modify p.src fun b =>
      { b with term := b.term.map (·.addArg p.edge v) } } := by
  refine ⟨⟨_, _, _, rfl⟩, Nat.le_refl _, Array.size_modify, rfl, fun j => ?_, rfl,
    fun _ _ => rfl, fun j _ _ => ?_, fun r _ _ => ?_⟩
  · simp only [termAt_mapTerm]
    split
    · cases termAt s.blocks j <;> simp [Terminator.shape_addArg]
    · rfl
  · rw [paramCount_modify]
    intro
    rfl
  · rw [paramCount_modify]
    intro
    rfl

/-- A parameter added to a sealed block that is not the one that returns. -/
theorem addParam (s : Lowering) {blk : Nat} (hsealed : sealedAt s.states blk = true)
    (hret : s.retBlock ≠ some blk) (d : ValueDef) :
    Grows [] s { s with
      values := s.values.push d
      blocks := s.blocks.modify blk fun b => { b with params := b.params.push s.values.size } } := by
  refine ⟨⟨_, _, _, rfl⟩, by simp, Array.size_modify, rfl, fun j => ?_, rfl,
    fun _ _ => rfl, fun j hj _ => ?_, fun r hr _ => ?_⟩
  · rw [termAt_modify]
    intro
    rfl
  · have hne : blk ≠ j := fun h => by rw [h] at hsealed; simp [hsealed] at hj
    exact paramCount_modify_ne hne
  · exact paramCount_modify_ne fun h => hret (h ▸ hr)

theorem mono {S T : List Nat} {s s' : Lowering} (h : Grows S s s') (hST : ∀ j ∈ S, j ∈ T) :
    Grows T s s' :=
  { h with
    sealed := fun j hj => h.sealed j fun hS => hj (hST j hS)
    params := fun j hj hT => h.params j hj fun hS => hT (hST j hS)
    ret := fun r hr hT => h.ret r hr fun hS => hT (hST r hS) }

/-- Sealing block `blk`, before its pending parameters are completed. -/
theorem sealBlock (s : Lowering) (blk : Nat) :
    Grows [blk] s { s with states := s.states.modify blk fun st =>
      { st with sealed := true, incomplete := #[] } } :=
  ⟨⟨_, _, _, rfl⟩, Nat.le_refl _, rfl, Array.size_modify, fun _ => rfl,
    predsAt_modify fun _ => rfl, fun j hj => by
      by_cases hblk : blk < s.states.size
      · rw [sealedAt_seal hblk]
        have hne : blk ≠ j := fun h => hj (List.mem_singleton.mpr h.symm)
        simp [hne]
      · simp only [sealedAt, Array.getElem?_modify]
        split
        · rename_i h
          subst h
          simp [Array.getElem?_eq_none (Nat.le_of_not_lt hblk)]
        · rfl,
    fun _ _ _ => rfl, fun _ _ _ => rfl⟩

/-- A parameter completed in the block being sealed: the value of an earlier read becomes its
next parameter. -/
theorem completeParam (s : Lowering) (blk v : Nat) {g : ValueDef → ValueDef} :
    Grows [blk] s { s with
      values := s.values.modify v g
      blocks := s.blocks.modify blk fun b => { b with params := b.params.push v } } := by
  refine ⟨⟨_, _, _, rfl⟩, by simp, Array.size_modify, rfl, fun j => ?_, rfl, fun _ _ => rfl,
    fun j _ hj => ?_, fun r _ hr => ?_⟩
  · rw [termAt_modify]
    intro
    rfl
  · exact paramCount_modify_ne fun h => hj (List.mem_singleton.mpr h.symm)
  · exact paramCount_modify_ne fun h => hr (List.mem_singleton.mpr h.symm)

end Grows

/-! ## Edges while locals are resolved -/

theorem Terminator.map_block_of_shape {t t' : Terminator} (h : t.shape = t'.shape) :
    t.successors.map (·.block) = t'.successors.map (·.block) := by
  cases t <;> cases t' <;> simp [Terminator.shape, Terminator.successors] at h ⊢
  case br.br => exact h
  case condBr.condBr => exact h.2
  case select.select ts d ts' d' =>
    refine ⟨?_, h.2.2⟩
    have hblocks := congrArg (List.map Target.block) h.2.1
    simpa [List.map_map, Function.comp_def] using hblocks

theorem edgeAt_block_of_shape {bs bs' : Array Block}
    (h : ∀ j, (termAt bs' j).map (·.shape) = (termAt bs j).map (·.shape)) (e : PredEdge) :
    (edgeAt bs' e).map (·.block) = (edgeAt bs e).map (·.block) := by
  have he := h e.src
  unfold edgeAt
  cases h' : termAt bs' e.src <;> cases h'' : termAt bs e.src <;> simp [h', h''] at he ⊢
  have hblocks := congrArg (·[e.edge]?) (Terminator.map_block_of_shape he)
  simpa [List.getElem?_map] using hblocks

theorem termAt_ret_of_shape {bs bs' : Array Block}
    (h : ∀ j, (termAt bs' j).map (·.shape) = (termAt bs j).map (·.shape)) {j : Nat}
    {vals : List Nat} (hret : termAt bs j = some (.ret vals)) : termAt bs' j = some (.ret vals) := by
  have hj := h j
  rw [hret] at hj
  cases h' : termAt bs' j with
  | none => simp [h'] at hj
  | some t =>
    simp only [h', Option.map_some, Option.some.injEq] at hj
    rw [Terminator.shape_eq_ret.mp (hj.trans rfl)]

namespace Linked

theorem grows {S : List Nat} (hl : s.Linked) (h : Grows S s s') : s'.Linked := by
  have hshape := h.shape
  have hblocks := h.blocks
  have hpreds := h.preds
  obtain ⟨bs, vs, sts, rfl⟩ := h.rest
  refine ⟨h.states.trans (hl.sizes.trans hblocks.symm), fun e t he => ?_, fun j e => ?_,
    fun j => hpreds ▸ hl.nodup j, fun r hr => ?_⟩
  · have hb := edgeAt_block_of_shape hshape e
    rw [he] at hb
    obtain ⟨t₀, ht₀, hblock⟩ := Option.map_eq_some_iff.mp hb.symm
    have htarget := hl.targets e t₀ ht₀
    simp only at hblock
    rwa [hblocks, ← hblock]
  · rw [hpreds, edgeAt_block_of_shape hshape e]
    exact hl.preds j e
  · obtain ⟨hr, vals, hvals⟩ := hl.ret r hr
    exact ⟨hblocks ▸ hr, vals, termAt_ret_of_shape hshape hvals⟩

/-- An edge recorded into a block leaves a block that exists and does not return. -/
theorem src_of_pred (hl : s.Linked) {j : Nat} {e : PredEdge} (he : e ∈ predsAt s.states j) :
    e.src < s.blocks.size ∧ s.retBlock ≠ some e.src := by
  obtain ⟨t, ht, -⟩ := Option.map_eq_some_iff.mp ((hl.preds j e).mp he)
  unfold edgeAt at ht
  obtain ⟨term, hterm, hsucc⟩ := Option.bind_eq_some_iff.mp ht
  refine ⟨?_, fun hr => ?_⟩
  · unfold termAt at hterm
    obtain ⟨b, hb, -⟩ := Option.bind_eq_some_iff.mp hterm
    exact (Array.getElem?_eq_some_iff.mp hb).1
  · obtain ⟨-, vals, hvals⟩ := hl.ret e.src hr
    rw [hvals] at hterm
    cases hterm
    simp [Terminator.successors] at hsucc

/-- Each edge into a block is recorded there once. -/
theorem count_preds (hl : s.Linked) (j : Nat) (e : PredEdge) :
    (predsAt s.states j).count e = if (edgeAt s.blocks e).map (·.block) = some j then 1 else 0 := by
  split
  · exact List.count_eq_one_of_mem (hl.nodup j) ((hl.preds j e).mpr ‹_›)
  · exact List.count_eq_zero_of_not_mem fun he => ‹¬_› ((hl.preds j e).mp he)

end Linked

/-- A parameter added to a block leaves one argument pending on each edge into it. -/
theorem arity_pushParam (hl : s.Linked) {pend : PredEdge → Nat} (ha : Arity s.blocks pend)
    {blk : Nat} (hblk : blk < s.blocks.size) (v : Nat) :
    Arity (s.blocks.modify blk fun b => { b with params := b.params.push v })
      (fun e => pend e + (predsAt s.states blk).count e) := by
  intro e t he
  rw [edgeAt_modify] at he
  · dsimp only
    rw [paramCount_pushParam hblk, ← ha e t he, hl.count_preds blk e, he]
    by_cases hj : blk = t.block
    · simp [hj]
      omega
    · simp [hj, Ne.symm hj]
  · intro
    rfl

/-- An argument added to edge `p` is one fewer pending on it. -/
theorem arity_addArg {bs : Array Block} {pend : PredEdge → Nat} {p : PredEdge} {rest : List PredEdge}
    (ha : Arity bs fun e => pend e + (p :: rest).count e) (v : Nat) :
    Arity (bs.modify p.src fun b => { b with term := b.term.map (·.addArg p.edge v) })
      (fun e => pend e + rest.count e) := by
  intro e t he
  dsimp only
  rw [paramCount_modify]
  · rw [edgeAt_addArg] at he
    split at he
    · rename_i hep
      subst hep
      obtain ⟨t₀, ht₀, rfl⟩ := Option.map_eq_some_iff.mp he
      have h₀ := ha e t₀ ht₀
      dsimp only at h₀
      simp only [List.count_cons_self] at h₀
      simp only [Target.withArg, List.length_append, List.length_singleton]
      omega
    · rename_i hep
      have h₀ := ha e t he
      dsimp only at h₀
      rwa [List.count_cons_of_ne (Ne.symm hep)] at h₀
  · intro
    rfl

/-! ## Reading locals -/

theorem predsAt_eq_getD (sts : Array BlockState) (j : Nat) :
    predsAt sts j = (sts[j]?.getD {}).preds.toList := by
  unfold predsAt
  cases sts[j]? <;> rfl

/-- What reading a local with `fuel` does, when it succeeds: it resolves locals, keeps every
value made and the arguments each edge has pending, and gives a value already made. -/
def ReadsLocal (fuel : Nat) : Prop :=
  ∀ (blk : Nat) (idx : UInt32) (s : Lowering) (v : Nat) (s' : Lowering) (pend : PredEdge → Nat),
    s.Linked → s.Bounded → Arity s.blocks pend → blk < s.blocks.size → s.retBlock ≠ some blk →
    (readLocal fuel blk idx).run s = .ok (v, s') →
    Grows [] s s' ∧ s'.Bounded ∧ Arity s'.blocks pend ∧ v < s'.values.size

/-- What passing a local along the edges into a block with `fuel` does, when it succeeds: it
supplies the argument each of those edges has pending. -/
def PassesLocal (fuel : Nat) : Prop :=
  ∀ (blk : Nat) (idx : UInt32) (s : Lowering) (s' : Lowering) (pend : PredEdge → Nat),
    s.Linked → s.Bounded → Arity s.blocks (fun e => pend e + (predsAt s.states blk).count e) →
    (addPredArgs fuel blk idx).run s = .ok ((), s') →
    Grows [] s s' ∧ s'.Bounded ∧ Arity s'.blocks pend

theorem readsLocal_zero : ReadsLocal 0 := by
  intro blk idx s v s' pend _ _ _ _ _ h
  rw [readLocal] at h
  cases h

theorem passesLocal_zero : PassesLocal 0 := by
  intro blk idx s s' pend _ _ _ h
  rw [addPredArgs] at h
  cases h

theorem readsLocal_succ {fuel : Nat} (hread : ReadsLocal fuel) (hpass : PassesLocal fuel) :
    ReadsLocal (fuel + 1) := by
  intro blk idx s v s' pend hl hb ha hblk hret h
  obtain ⟨st, hst⟩ : ∃ st, s.states[blk]? = some st :=
    ⟨_, Array.getElem?_eq_getElem (hl.sizes ▸ hblk)⟩
  have hmem : st ∈ s.states := Array.mem_of_getElem? hst
  rw [readLocal] at h
  simp only [StateT.run_bind, stateAt_run, hst, Option.getD_some, ok_bind] at h
  split at h
  · -- the block defines the local
    rename_i v₀ hv₀
    rw [pure_run] at h
    cases h
    exact ⟨Grows.refl [] s, hb, ha, (hb.states st hmem).1 idx _ hv₀⟩
  · simp only [StateT.run_bind, get_run, ok_bind] at h
    split at h
    · -- an unsealed block: a parameter to complete when it is sealed
      simp only [StateT.run_bind, newValue_run, ok_bind, modifyState_run, pure_run] at h
      cases h
      refine ⟨(Grows.pushValue s _).trans (Grows.modifyState _ blk (by intro; exact ⟨rfl, rfl⟩)),
        ?_, ha, by simp⟩
      refine (hb.pushValue _ (by simp [ValueDef.operands])).modifyState blk ?_
      intro st' hst'
      refine ⟨(BlockState.Below.define hst' idx (by simp)).1, fun p hp => ?_⟩
      rcases Array.mem_push.mp hp with hp | rfl
      · exact hst'.2 p hp
      · simp
    · split at h
      · -- one predecessor: the value there
        rw [StateT.run_bind] at h
        obtain ⟨⟨v₁, s₁⟩, h₁, h⟩ := bind_eq_ok h
        simp only [StateT.run_bind, defineLocal_run, ok_bind, pure_run] at h
        cases h
        have hp : st.preds[0] ∈ predsAt s.states blk := by
          rw [predsAt_eq_getD, hst, Option.getD_some]
          exact Array.mem_toList_iff.mpr (Array.getElem_mem _)
        obtain ⟨hsrc, hsrcret⟩ := hl.src_of_pred hp
        obtain ⟨hg, hb₁, ha₁, hv₁⟩ := hread _ idx s _ s₁ pend hl hb ha hsrc hsrcret h₁
        exact ⟨hg.trans (Grows.modifyState s₁ blk (by intro; exact ⟨rfl, rfl⟩)),
          hb₁.modifyState blk fun st' hst' => BlockState.Below.define hst' idx hv₁, ha₁, hv₁⟩
      · -- several: a new parameter, with the value passed along every edge into the block
        rename_i hsealed' _
        have hsealed : sealedAt s.states blk = true := by
          simpa [sealedAt, hst] using hsealed'
        rw [StateT.run_bind] at h
        obtain ⟨⟨u, s₀⟩, h₀, h⟩ := bind_eq_ok h
        rw [StateT.run_bind] at h
        obtain ⟨⟨_, s₁⟩, h₁, h⟩ := bind_eq_ok h
        rw [StateT.run_bind] at h
        obtain ⟨⟨_, s₂⟩, h₂, h⟩ := bind_eq_ok h
        rw [pure_run] at h
        cases h
        rw [addParam_run] at h₀
        obtain ⟨hu, hs₀⟩ := Prod.mk.inj (Except.ok.inj h₀)
        rw [defineLocal_run] at h₁
        obtain ⟨-, hs₁⟩ := Prod.mk.inj (Except.ok.inj h₁)
        have hg₀ : Grows [] s s₀ := hs₀ ▸ Grows.addParam s hsealed hret _
        have hg₁ : Grows [] s₀ s₁ := hs₁ ▸ Grows.modifyState s₀ blk (by intro; exact ⟨rfl, rfl⟩)
        have hu₀ : u < s₀.values.size := by
          rw [← hs₀, ← hu]
          simp
        have hb₀ : s₀.Bounded := by
          rw [← hs₀]
          refine (hb.pushValue _ (by simp [ValueDef.operands])).modifyBlock blk ?_
          intro b hbelow
          refine ⟨fun w hw => ?_, hbelow.2.1, hbelow.2.2⟩
          rcases Array.mem_push.mp hw with hw | rfl
          · exact hbelow.1 w hw
          · simp
        have hb₁ : s₁.Bounded := by
          rw [← hs₁]
          exact hb₀.modifyState blk fun st' hst' => BlockState.Below.define hst' idx hu₀
        have ha₁ : Arity s₁.blocks (fun e => pend e + (predsAt s₁.states blk).count e) := by
          rw [(hg₀.trans hg₁).preds, ← hs₁, ← hs₀]
          exact arity_pushParam hl ha hblk _
        obtain ⟨hg₂, hb₂, ha₂⟩ := hpass blk idx s₁ s₂ pend (hl.grows (hg₀.trans hg₁)) hb₁ ha₁ h₂
        refine ⟨(hg₀.trans hg₁).trans hg₂, hb₂, ha₂, ?_⟩
        calc u < s₀.values.size := hu₀
          _ ≤ s₂.values.size := Nat.le_trans hg₁.values hg₂.values

theorem passesLocal_succ {fuel : Nat} (hread : ReadsLocal fuel) : PassesLocal (fuel + 1) := by
  intro blk idx s s' pend hl hb ha h
  rw [addPredArgs] at h
  simp only [StateT.run_bind, stateAt_run, ok_bind] at h
  rw [← Array.forIn_toList, ← predsAt_eq_getD] at h
  obtain ⟨⟨_, t⟩, hloop, hfin⟩ := bind_eq_ok h
  rw [pure_run] at hfin
  cases hfin
  -- each edge into the block, in turn, receives the argument it has pending
  have key := forIn_run_invariant (fun pre _ t => Grows [] s t ∧ t.Bounded ∧
      Arity t.blocks fun e => pend e + ((predsAt s.states blk).drop pre.length).count e) ?_
    ⟨Grows.refl [] s, hb, by simpa using ha⟩ hloop
  · obtain ⟨hg, hb', ha'⟩ := key
    exact ⟨hg, hb', by simpa using ha'⟩
  · intro pre p rest _ t r t' hpre ⟨hg, hbt, hat⟩ hstep
    have hdrop : (predsAt s.states blk).drop pre.length = p :: rest := by
      rw [← hpre, List.drop_left]
    have hdrop' : (predsAt s.states blk).drop (pre ++ [p]).length = rest := by
      rw [← hpre, List.length_append, List.length_singleton, ← List.drop_drop, List.drop_left]
      rfl
    rw [StateT.run_bind] at hstep
    obtain ⟨⟨v, t₁⟩, h₁, hstep⟩ := bind_eq_ok hstep
    simp only [StateT.run_bind, modifyBlock_run, ok_bind, pure_run] at hstep
    cases hstep
    have hlt := hl.grows hg
    have hp : p ∈ predsAt t.states blk := by
      rw [hg.preds, ← hpre]
      simp
    obtain ⟨hsrc, hsrcret⟩ := hlt.src_of_pred hp
    rw [hdrop] at hat
    obtain ⟨hg₁, hb₁, ha₁, hv⟩ := hread p.src idx t v t₁ _ hlt hbt hat hsrc hsrcret h₁
    refine ⟨_, rfl, hg.trans (hg₁.trans (Grows.addArg t₁ p v)), ?_, ?_⟩
    · refine hb₁.modifyBlock p.src fun b hbelow => ⟨hbelow.1, hbelow.2.1, fun term hterm => ?_⟩
      obtain ⟨t₀, ht₀, rfl⟩ := Option.map_eq_some_iff.mp hterm
      exact (hbelow.2.2 t₀ ht₀).addArg p.edge hv
    · rw [hdrop']
      exact arity_addArg ha₁ v

/-- Reading a local and passing it along edges, with any fuel. -/
theorem resolves (fuel : Nat) : ReadsLocal fuel ∧ PassesLocal fuel := by
  induction fuel with
  | zero => exact ⟨readsLocal_zero, passesLocal_zero⟩
  | succ fuel ih => exact ⟨readsLocal_succ ih.1 ih.2, passesLocal_succ ih.1⟩

/-! ## Sealing -/

/-- Sealing a block completes the parameters made for reads in it: each gets its argument on
every edge into the block. -/
theorem sealBlock_grows {blk : Nat} (hl : s.Linked) (hb : s.Bounded) (ha : Arity s.blocks fun _ => 0)
    (hblk : blk < s.blocks.size) (h : (sealBlock blk).run s = .ok ((), s')) :
    Grows [blk] s s' ∧ s'.Bounded ∧ Arity s'.blocks (fun _ => 0) ∧ sealedAt s'.states blk = true := by
  obtain ⟨st, hst⟩ : ∃ st, s.states[blk]? = some st :=
    ⟨_, Array.getElem?_eq_getElem (hl.sizes ▸ hblk)⟩
  have hmem : st ∈ s.states := Array.mem_of_getElem? hst
  rw [sealBlock] at h
  simp only [StateT.run_bind, stateAt_run, hst, Option.getD_some, ok_bind] at h
  split at h
  · -- already sealed
    rename_i hsealed
    rw [pure_run] at h
    cases h
    exact ⟨Grows.refl _ s, hb, ha, by simp [sealedAt, hst, hsealed]⟩
  · simp only [StateT.run_bind, modifyState_run, ok_bind] at h
    rw [← Array.forIn_toList] at h
    obtain ⟨⟨_, t⟩, hloop, hfin⟩ := bind_eq_ok h
    rw [pure_run] at hfin
    cases hfin
    have hsize : blk < s.states.size := hl.sizes ▸ hblk
    -- each parameter made before sealing, in turn, becomes a parameter and gets its arguments
    refine forIn_run_invariant (fun _ _ t => Grows [blk] s t ∧ t.Bounded ∧
        Arity t.blocks (fun _ => 0) ∧ sealedAt t.states blk = true) ?_
      ⟨Grows.sealBlock s blk, hb.modifyState blk fun st' hst' => ⟨hst'.1, by simp⟩, ha,
        by simp [sealedAt_seal hsize]⟩ hloop
    rintro pre p rest _ t r t' hpre ⟨hg, hbt, hat, hsealed⟩ hstep
    have hp : p ∈ st.incomplete := by
      rw [← Array.mem_toList_iff, ← hpre]
      simp
    have hv : p.1 < t.values.size :=
      Nat.lt_of_lt_of_le ((hb.states st hmem).2 p hp) hg.values
    simp only [StateT.run_bind, blockAt_run, ok_bind, modify_run, modifyBlock_run,
      lookupFuel_run] at hstep
    obtain ⟨⟨_, t₂⟩, h₂, hstep⟩ := bind_eq_ok hstep
    rw [pure_run] at hstep
    cases hstep
    have key := (resolves _).2 blk p.2 _ t₂ (fun _ => 0) ?_ ?_ ?_ h₂
    · obtain ⟨hg₂, hb₂, ha₂⟩ := key
      refine ⟨_, rfl, ((hg.trans (Grows.completeParam t blk p.1)).trans hg₂).mono (by simp), hb₂,
        ha₂, ?_⟩
      rw [hg₂.sealed blk List.not_mem_nil]
      exact hsealed
    · exact (hl.grows hg).grows (Grows.completeParam t blk p.1)
    · exact hbt.completeParam blk hv _ (by intro d; cases d <;> rfl)
    · exact arity_pushParam (hl.grows hg) hat (hg.blocks ▸ hblk) p.1

end Lowering

end WasmImage.Ssa
