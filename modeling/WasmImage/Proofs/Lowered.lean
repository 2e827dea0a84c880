import WasmImage.Proofs.LowerRun

/-!
# The bodies lowering builds

`Lowers m sig locals pre s`: lowering a body of a function of type `sig` in module `m`, with
declared locals `locals`, sets up the entry block and then lowers the instructions `pre` one at a
time, reaching `s`. Every state reached is formed (`Lowers.formed`), and no step takes back a
terminator or changes it but by adding arguments to its edges (`Lowers.keepsTerms`).

A body lowered to the end, with every frame closed, satisfies the representation invariant
`Body.Consistent`: a block lists each edge into it once, parameters and parameter values agree
both ways, every operator runs in exactly one block, once, and a pick names an operator with
several results. `Body.Lowered` adds what the body's readers take for granted: the entry block
and every target exist, every value named is made, every return carries one value per result.
-/

namespace WasmImage.Ssa

open Wasm Lower

/-! ## The run -/

/-- The states lowering a body passes through: the entry block set up, then each instruction of
`pre` in turn, each while a frame is still open. -/
inductive Lowers (m : Module) (sig : FuncType) (locals : List LocalGroup) :
    List Instr → Lowering → Prop
  | start {s : Lowering} :
      (Lower.start locals).run { module := m, params := sig.params, results := sig.results } =
        .ok ((), s) → Lowers m sig locals [] s
  | step {pre : List Instr} {s s' : Lowering} {ins : Instr} : Lowers m sig locals pre s →
      s.frames.isEmpty = false → (Lower.instr ins).run s = .ok ((), s') →
      Lowers m sig locals (pre ++ [ins]) s'

namespace Lower

variable {s : Lowering} {α : Type}

/-- A failure rethrown with more context: the computation succeeds exactly as it would alone. -/
theorem tryCatch_throw_run {x : LowerM α} {g : LowerFault → LowerFault} {r : α × Lowering}
    (h : (tryCatch x fun e => throw (g e) : LowerM α).run s = .ok r) : x.run s = .ok r := by
  have hrun : (tryCatch x fun e => throw (g e) : LowerM α).run s =
      tryCatch (x.run s) fun e => .error (g e) := rfl
  rw [hrun] at h
  cases hx : x.run s with
  | error e => rw [hx] at h; cases h
  | ok a => rw [hx] at h; exact h

/-- Lowering a body sets up the entry block, lowers every instruction while a frame is open, and
ends with every frame closed. -/
theorem run_lowers {m : Module} {sig : FuncType} {locals : List LocalGroup} {instrs : List Instr}
    (h : (Lower.run locals instrs).run { module := m, params := sig.params, results := sig.results } =
      .ok ((), s)) :
    Lowers m sig locals instrs s ∧ s.frames = #[] := by
  simp only [Lower.run, StateT.run_bind] at h
  obtain ⟨⟨⟨⟩, s₀⟩, h₀, h⟩ := bind_eq_ok h
  obtain ⟨⟨⟨⟩, s₁⟩, h₁, h⟩ := bind_eq_ok h
  have hl : Lowers m sig locals instrs s₁ := by
    refine forIn_run_invariant (fun pre _ t => Lowers m sig locals pre t) ?_ (Lowers.start h₀) h₁
    rintro pre ins rest b t r t' - hl hstep
    simp only [StateT.run_bind, get_run, ok_bind] at hstep
    split at hstep
    · cases hstep
    rename_i hopen
    obtain ⟨⟨⟨⟩, t₁⟩, h₂, hstep⟩ := bind_eq_ok hstep
    cases hstep
    exact ⟨_, rfl, hl.step (by simpa using hopen) (tryCatch_throw_run h₂)⟩
  simp only [get_run, ok_bind] at h
  split at h
  · cases h
  rename_i hclosed
  cases h
  exact ⟨hl, by simpa using hclosed⟩

end Lower

namespace Lowers

variable {m : Module} {sig : FuncType} {locals : List LocalGroup} {pre : List Instr} {s : Lowering}
  {ok : Operator → Prop}

/-- Every state a lowering reaches is formed and keeps the function's results, when `ok` allows
every operator the lowering may run. -/
theorem formed (hzero : ∀ t z, zeroOperator t = some z → ok z)
    (hops : ∀ ins ∈ pre, ok ⟨ins.op, ins.imm⟩ ∧ ok ⟨0x10, ins.imm⟩ ∧ ok ⟨0x11, ins.imm⟩)
    (h : Lowers m sig locals pre s) : s.Formed ok ∧ s.results = sig.results := by
  induction h with
  | start h => exact Lowering.Formed.start hzero h
  | @step pre s s' ins _ _ hstep ih =>
    obtain ⟨hf, hres⟩ := ih fun i hi => hops i (List.mem_append_left _ hi)
    obtain ⟨hf', _, ha⟩ := hf.instr (hops ins (List.mem_append_right _ (List.mem_singleton_self ins))) hstep
    exact ⟨hf', ha.results.trans hres⟩

end Lowers

/-! ## The body of a finished lowering -/

/-- The blocks of a finished lowering as its body holds them: each lists the sources of the edges
recorded into it. -/
def Lowering.bodyBlocks (s : Lowering) : Array Block :=
  (s.blocks.zip s.states).map fun (b, st) => { b with preds := st.preds.toList.map (·.src) }

/-- The blocks that block `j` branches to, once per edge, in the order of its edges. -/
def succsAt (bs : Array Block) (j : Nat) : List Nat :=
  ((termAt bs j).map fun t => t.successors.map (·.block)).getD []

/-- The predecessors block `j` lists. -/
def predsOf (bs : Array Block) (j : Nat) : List Nat := (bs[j]?.map (·.preds)).getD []

section BodyBlocks

variable {s : Lowering}

theorem getElem?_bodyBlocks (hsize : s.states.size = s.blocks.size) (j : Nat) :
    s.bodyBlocks[j]? = s.blocks[j]?.map fun b => { b with preds := (predsAt s.states j).map (·.src) } := by
  unfold Lowering.bodyBlocks predsAt
  rw [Array.getElem?_map]
  by_cases hj : j < s.blocks.size
  · have hj' : j < s.states.size := hsize ▸ hj
    have hz : j < (s.blocks.zip s.states).size := by simp [Array.size_zip, hsize, hj]
    simp [Array.getElem?_eq_getElem hz, Array.getElem?_eq_getElem hj, Array.getElem?_eq_getElem hj',
      Array.getElem_zip]
  · have hz : ¬ j < (s.blocks.zip s.states).size := by simp [Array.size_zip, hsize, hj]
    simp [Array.getElem?_eq_none (Nat.le_of_not_lt hz), Array.getElem?_eq_none (Nat.le_of_not_lt hj)]

theorem size_bodyBlocks (hsize : s.states.size = s.blocks.size) : s.bodyBlocks.size = s.blocks.size := by
  simp [Lowering.bodyBlocks, Array.size_zip, hsize]

theorem termAt_bodyBlocks (hsize : s.states.size = s.blocks.size) :
    termAt s.bodyBlocks = termAt s.blocks := by
  funext j
  simp only [termAt, getElem?_bodyBlocks hsize]
  cases s.blocks[j]? <;> rfl

theorem paramAt_bodyBlocks (hsize : s.states.size = s.blocks.size) :
    paramAt s.bodyBlocks = paramAt s.blocks := by
  funext j i
  simp only [paramAt, getElem?_bodyBlocks hsize]
  cases s.blocks[j]? <;> rfl

theorem instsOf_bodyBlocks (hsize : s.states.size = s.blocks.size) :
    instsOf s.bodyBlocks = instsOf s.blocks := by
  have hfst : (s.blocks.toList.zip s.states.toList).map Prod.fst = s.blocks.toList :=
    List.map_fst_zip (by simp [hsize])
  simp only [instsOf, Lowering.bodyBlocks, Array.toList_map, Array.toList_zip, List.flatMap_map]
  conv_rhs => rw [← hfst]
  rw [List.flatMap_map]

theorem predsOf_bodyBlocks (hsize : s.states.size = s.blocks.size) (j : Nat) :
    predsOf s.bodyBlocks j = (predsAt s.states j).map (·.src) := by
  simp only [predsOf, getElem?_bodyBlocks hsize]
  cases hb : s.blocks[j]? with
  | some b => rfl
  | none =>
    have hj : s.states.size ≤ j := hsize ▸ Array.getElem?_eq_none_iff.mp hb
    simp [predsAt, Array.getElem?_eq_none hj]

end BodyBlocks

/-! ## Edges counted -/

/-- The blocks a terminator branches to are the targets of its edges. -/
theorem getElem?_succsAt (bs : Array Block) (i k : Nat) :
    (succsAt bs i)[k]? = (edgeAt bs ⟨i, k⟩).map (·.block) := by
  unfold succsAt edgeAt
  cases termAt bs i with
  | none => rfl
  | some t => simp

/-- A list of edges out of block `i`, each once, that holds exactly the edges into block `j`
among `succs`, the blocks `i` branches to, is as long as the number of times `succs` names `j`. -/
theorem length_eq_count_of_edges {succs : List Nat} (i : Nat) {j : Nat} {l : List PredEdge} (hnodup : l.Nodup)
    (hmem : ∀ e, e ∈ l ↔ e.src = i ∧ succs[e.edge]? = some j) : l.length = succs.count j := by
  -- the same edges, listed by walking `succs`
  let K := (succs.zipIdx.filter fun p => p.1 == j).map fun p => (⟨i, p.2⟩ : PredEdge)
  have hK : K.Nodup := by
    refine List.Nodup.map_on ?_ ((List.Nodup.of_map Prod.snd (List.nodup_zipIdx_map_snd succs)).filter _)
    rintro ⟨a, k⟩ ha ⟨b, k'⟩ hb hab
    simp only [List.mem_filter, beq_iff_eq] at ha hb
    simp only [PredEdge.mk.injEq, true_and] at hab
    rw [ha.2, hb.2, hab]
  have hmemK : ∀ e, e ∈ K ↔ e.src = i ∧ succs[e.edge]? = some j := by
    rintro ⟨a, k⟩
    simp only [K, List.mem_map, List.mem_filter, beq_iff_eq, PredEdge.mk.injEq, Prod.exists]
    constructor
    · rintro ⟨x, k', ⟨hx, rfl⟩, rfl, rfl⟩
      exact ⟨rfl, List.mem_zipIdx_iff_getElem?.mp hx⟩
    · rintro ⟨rfl, hk⟩
      exact ⟨j, k, ⟨List.mem_zipIdx_iff_getElem?.mpr hk, rfl⟩, rfl, rfl⟩
  have hperm := (List.perm_ext_iff_of_nodup hnodup hK).mpr fun e => (hmem e).trans (hmemK e).symm
  have hfilter := @List.filter_map _ _ Prod.fst (· == j) succs.zipIdx
  rw [List.zipIdx_map_fst] at hfilter
  rw [hperm.length_eq, List.length_map, List.count_eq_length_filter, hfilter, List.length_map]
  rfl

/-! ## The representation invariant -/

/-- The representation invariant of a lowered body. -/
structure Body.Consistent (b : Body) : Prop where
  /-- Block `i` is listed among the predecessors of block `j` once per edge from `i` to `j`. -/
  preds : ∀ i j, (predsOf b.blocks j).count i = (succsAt b.blocks i).count j
  /-- Parameter `k` of block `j` is the parameter value of block `j` at index `k`, and every
  parameter value is in its block at its index. -/
  params : ∀ j k v, paramAt b.blocks j k = some v ↔ ∃ t, b.values[v]? = some (.param j k t)
  /-- Every operator value is run once, by one block, and the blocks run nothing else. -/
  insts : ∀ v, (instsOf b.blocks).count v = if b.values[v]?.any ValueDef.isOperator then 1 else 0
  /-- A pick names an operator with several results, and one of them. -/
  picks : ∀ (v src k : Nat) (t : ValType), b.values[v]? = some (.pick src k t) →
    ∃ (o : Operator) (args : List Nat) (ts : List ValType),
      b.values[src]? = some (.operator o args ts) ∧ 2 ≤ ts.length ∧ k < ts.length

/-- What every body lowering builds satisfies, `ok` holding of each operator it runs: it is
consistent, its entry block and every target exist, every value its terminators name is made,
and every return carries one value per result. -/
structure Body.Lowered (ok : Operator → Prop) (b : Body) : Prop where
  consistent : b.Consistent
  entry : b.entry < b.blocks.size
  targets : ∀ j t, termAt b.blocks j = some t → ∀ e ∈ t.successors, e.block < b.blocks.size
  below : ∀ j t, termAt b.blocks j = some t → t.Below b.values.size
  rets : ∀ j vals, termAt b.blocks j = some (.ret vals) → vals.length = b.results.length
  ops : ∀ (v : Nat) (o : Operator) (args : List Nat) (ts : List ValType),
    b.values[v]? = some (.operator o args ts) → ok o

namespace Lowering.Formed

variable {s : Lowering} {ok : Operator → Prop}

/-- Every edge recorded into a block is listed in it once per edge. -/
theorem count_preds (hf : s.Formed ok) (i j : Nat) :
    (predsOf s.bodyBlocks j).count i = (succsAt s.bodyBlocks i).count j := by
  have hl : s.Linked := hf.built.linked
  rw [predsOf_bodyBlocks hl.sizes, List.count_eq_countP, List.countP_map, List.countP_eq_length_filter]
  refine length_eq_count_of_edges i ((hl.nodup j).filter _) fun e => ?_
  rw [List.mem_filter, hl.preds, succsAt, termAt_bodyBlocks hl.sizes, ← succsAt, getElem?_succsAt]
  constructor
  · rintro ⟨he, hsrc⟩
    have hsrc : e.src = i := by simpa using hsrc
    subst hsrc
    exact ⟨rfl, he⟩
  · rintro ⟨rfl, he⟩
    exact ⟨he, by simp⟩

/-- With every frame closed the body is consistent. -/
theorem consistent (hf : s.Formed ok) (hframes : s.frames = #[]) {b : Body}
    (hblocks : b.blocks = s.bodyBlocks) (hvalues : b.values = s.values) : b.Consistent := by
  have hl : s.Linked := hf.built.linked
  have hm := hf.built.made
  -- every block is sealed, so no read waits for its parameter
  have hsettled : ∀ j, pendingAt s.states j = [] := by
    intro j
    by_cases hj : j < s.blocks.size
    · exact hm.settled j (hf.sealed_of_closed hframes j hj)
    · simp [pendingAt, Array.getElem?_eq_none (hl.sizes ▸ Nat.le_of_not_lt hj)]
  have hplaced : Placed s.values s.blocks fun _ => [] := hm.placed.perm fun j => by simp [hsettled j]
  refine ⟨fun i j => ?_, fun j k v => ?_, fun v => ?_, ?_⟩
  · rw [hblocks]
    exact hf.count_preds i j
  · rw [hblocks, hvalues, paramAt_bodyBlocks hl.sizes]
    refine ⟨hplaced.params j k v, fun hparam => ?_⟩
    obtain ⟨t, ht⟩ := hparam
    rcases hplaced.whole v j k t ht with h | h
    · exact h
    · cases h
  · rw [hblocks, hvalues, instsOf_bodyBlocks hl.sizes]
    split
    · exact List.count_eq_one_of_mem hm.ran.nodup ((hm.ran.insts v).mpr ‹_›)
    · exact List.count_eq_zero_of_not_mem fun hv => ‹¬_› ((hm.ran.insts v).mp hv)
  · rw [hvalues]
    exact hm.ran.picks

/-- With every frame closed the body is lowered: consistent, and with all its readers need. -/
theorem lowered (hf : s.Formed ok) (hframes : s.frames = #[]) {b : Body}
    (hblocks : b.blocks = s.bodyBlocks) (hvalues : b.values = s.values) (hentry : b.entry = 0)
    (hresults : b.results = s.results) : b.Lowered ok := by
  have hl : s.Linked := hf.built.linked
  have hterm : termAt b.blocks = termAt s.blocks := by rw [hblocks, termAt_bodyBlocks hl.sizes]
  refine ⟨hf.consistent hframes hblocks hvalues, ?_, fun j t ht e he => ?_, fun j t ht => ?_,
    fun j vals hj => ?_, fun v o args ts hv => ?_⟩
  · rw [hentry, hblocks, size_bodyBlocks hl.sizes]
    exact Nat.lt_of_le_of_lt (Nat.zero_le _) hf.cur
  · rw [hterm] at ht
    rw [hblocks, size_bodyBlocks hl.sizes]
    obtain ⟨k, hk⟩ := List.mem_iff_getElem?.mp he
    exact hl.targets ⟨j, k⟩ e (by simp [edgeAt, ht, hk])
  · rw [hterm] at ht
    rw [hvalues]
    obtain ⟨blk, hblk, hbt⟩ : ∃ blk, s.blocks[j]? = some blk ∧ blk.term = some t := by
      simpa [termAt, Option.bind_eq_some_iff] using ht
    exact (hf.built.bounded.blocks blk (Array.mem_of_getElem? hblk)).2.2 t hbt
  · rw [hterm] at hj
    rw [hresults]
    exact hf.built.rets j vals hj
  · rw [hvalues] at hv
    exact hf.built.ops v o args ts hv

end Lowering.Formed

/-! ## Lowered bodies -/

namespace Body

variable {m : Module} {sig : FuncType} {locals : List LocalGroup} {instrs : List Instr} {body : Body}
  {ok : Operator → Prop}

/-- A body lowering finishes is lowered, `ok` holding of every operator it may run, and returns
the function's results. -/
theorem ofCode_lowered (hzero : ∀ t z, zeroOperator t = some z → ok z)
    (hops : ∀ ins ∈ instrs, ok ⟨ins.op, ins.imm⟩ ∧ ok ⟨0x10, ins.imm⟩ ∧ ok ⟨0x11, ins.imm⟩)
    (h : Body.ofCode m sig locals instrs = .ok body) : body.Lowered ok ∧ body.results = sig.results := by
  unfold Body.ofCode at h
  obtain ⟨⟨⟨⟩, s⟩, hrun, h⟩ := bind_eq_ok h
  cases h
  obtain ⟨hl, hframes⟩ := Lower.run_lowers hrun
  obtain ⟨hf, hres⟩ := hl.formed hzero hops
  exact ⟨hf.lowered hframes rfl rfl rfl hres.symm, rfl⟩

/-- Lowering function `f` of `m` lowers the code of a defined function, of the type `m` gives it,
from its decoded instructions. -/
theorem lower_ofCode {f : UInt32} (h : Body.lower m f = .ok body) :
    ∃ (sig : FuncType) (code : Wasm.Body) (instrs : List Instr), m.funcType? f = some sig ∧
      Instr.decodeAll code.code = .ok instrs ∧ Body.ofCode m sig code.locals instrs = .ok body := by
  unfold Body.lower at h
  simp only at h
  split at h
  · cases h
  split at h
  · rename_i code _
    split at h
    · rename_i sig hsig
      split at h
      · rename_i instrs hinstrs
        simp only [pure_bind] at h
        split at h
        · rename_i hbody
          cases h
          exact ⟨sig, code, instrs, hsig, hinstrs, hbody⟩
        · cases h
      · cases h
    · cases h
  · cases h

/-- Every body lowering gives is consistent. -/
theorem lower_consistent {f : UInt32} (h : Body.lower m f = .ok body) : body.Consistent := by
  obtain ⟨sig, code, instrs, -, -, hbody⟩ := lower_ofCode h
  obtain ⟨hl, -⟩ : body.Lowered (fun _ => True) ∧ _ :=
    ofCode_lowered (fun _ _ _ => trivial) (fun _ _ => ⟨trivial, trivial, trivial⟩) hbody
  exact hl.consistent

end Body

end WasmImage.Ssa
