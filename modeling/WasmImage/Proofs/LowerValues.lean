import WasmImage.Proofs.LowerLocals

/-!
# Where lowering puts the values it makes

Lowering makes three kinds of values. An operator is run by exactly one block, once, and a pick
names an operator with several results and one of them (`Ran`). A parameter of block `j` with
index `i` is the `i`-th parameter of `j`, but for the reads made in `j` before it is sealed: each
gets a parameter value with index `0` that waits among the incomplete reads of the block, and
takes its place, with its index, when the block is sealed (`Placed`).

Resolving locals and sealing blocks keep both (`Lowering.Made`): they make parameters only and
leave every other value as it is (`SameOps`).
-/

namespace WasmImage.Ssa

open Wasm Lower

/-! ## Accessors -/

/-- Parameter `i` of block `j`. -/
def paramAt (bs : Array Block) (j i : Nat) : Option Nat := bs[j]?.bind (·.params[i]?)

/-- The operators the blocks run, block after block. -/
def instsOf (bs : Array Block) : List Nat := bs.toList.flatMap (·.insts.toList)

/-- The values of the reads made in block `j` while it is not sealed, in order. -/
def pendingAt (sts : Array BlockState) (j : Nat) : List Nat :=
  ((sts[j]?.map (·.incomplete.toList)).getD []).map (·.1)

/-- Whether a value is an operator application. -/
def ValueDef.isOperator : ValueDef → Bool
  | .operator .. => true
  | _ => false

/-- Whether a value is a block parameter. -/
def ValueDef.isParam : ValueDef → Bool
  | .param .. => true
  | _ => false

section Accessors

variable {bs : Array Block} {sts : Array BlockState} {i : Nat}

@[simp] theorem paramAt_push_empty : paramAt (bs.push {}) = paramAt bs := by
  funext j k
  simp only [paramAt, Array.getElem?_push]
  split
  · rename_i h
    subst h
    simp
  · rfl

theorem paramAt_modify {f : Block → Block} (hf : ∀ b, (f b).params = b.params) :
    paramAt (bs.modify i f) = paramAt bs := by
  funext j k
  simp only [paramAt, Array.getElem?_modify]
  split
  · cases bs[j]? <;> simp [hf]
  · rfl

theorem paramAt_pushParam (hi : i < bs.size) (v j k : Nat) :
    paramAt (bs.modify i fun b => { b with params := b.params.push v }) j k =
      if j = i ∧ k = bs[i].params.size then some v else paramAt bs j k := by
  simp only [paramAt, Array.getElem?_modify]
  by_cases hij : i = j
  · subst hij
    simp only [Array.getElem?_eq_getElem hi, Option.map_some, Option.bind_some,
      Array.getElem?_push, true_and, if_true]
  · simp [hij, Ne.symm hij]

@[simp] theorem instsOf_push_empty : instsOf (bs.push {}) = instsOf bs := by
  simp [instsOf]

theorem instsOf_modify {f : Block → Block} (hf : ∀ b, (f b).insts = b.insts) :
    instsOf (bs.modify i f) = instsOf bs := by
  simp only [instsOf, List.flatMap_def, Array.toList_modify]
  rw [Terminator.map_modify_of (fun b => by rw [hf])]

/-- An operator run by block `i` adds it to the operators of the blocks, at its place. -/
theorem instsOf_pushInst (hi : i < bs.size) (v : Nat) :
    (instsOf (bs.modify i fun b => { b with insts := b.insts.push v })).Perm (instsOf bs ++ [v]) := by
  have hlen : i < bs.toList.length := by simpa using hi
  have hsplit : bs.toList = bs.toList.take i ++ bs.toList[i] :: bs.toList.drop (i + 1) := by
    rw [List.getElem_cons_drop, List.take_append_drop]
  simp only [instsOf, Array.toList_modify, List.modify_eq_take_cons_drop hlen]
  conv => rhs; rw [hsplit]
  simp only [List.flatMap_append, List.flatMap_cons, Array.toList_push, List.append_assoc]
  refine List.Perm.append_left _ ?_
  refine List.Perm.append_left _ ?_
  exact List.perm_append_comm

@[simp] theorem pendingAt_push_empty : pendingAt (sts.push {}) = pendingAt sts := by
  funext j
  simp only [pendingAt, Array.getElem?_push]
  split
  · rename_i h
    subst h
    simp
  · rfl

theorem pendingAt_modify {f : BlockState → BlockState} (hf : ∀ st, (f st).incomplete = st.incomplete) :
    pendingAt (sts.modify i f) = pendingAt sts := by
  funext j
  simp only [pendingAt, Array.getElem?_modify]
  split
  · cases sts[j]? <;> simp [hf]
  · rfl

/-- A read that waits in block `i`. -/
theorem pendingAt_pushIncomplete (hi : i < sts.size) {f : BlockState → BlockState} {p : Nat × UInt32}
    (hf : ∀ st, (f st).incomplete = st.incomplete.push p) (j : Nat) :
    pendingAt (sts.modify i f) j = pendingAt sts j ++ if j = i then [p.1] else [] := by
  simp only [pendingAt, Array.getElem?_modify]
  by_cases hij : i = j
  · subst hij
    simp [Array.getElem?_eq_getElem hi, hf]
  · simp [hij, Ne.symm hij]

/-- The reads waiting in block `i`, all dropped. -/
theorem pendingAt_clear {f : BlockState → BlockState} (hf : ∀ st, (f st).incomplete = #[]) (j : Nat) :
    pendingAt (sts.modify i f) j = if j = i then [] else pendingAt sts j := by
  simp only [pendingAt, Array.getElem?_modify]
  by_cases hij : i = j
  · subst hij
    cases sts[i]? <;> simp [hf]
  · simp [hij, Ne.symm hij]

theorem pendingAt_linkEdges (cur : Nat) :
    ∀ (l : List (Target × Nat)) (sts : Array BlockState), pendingAt (linkEdges cur l sts) = pendingAt sts
  | [], _ => rfl
  | (_, _) :: rest, sts => by
    rw [linkEdges, pendingAt_linkEdges cur rest, pendingAt_modify]
    intro
    rfl

end Accessors

/-! ## Parameters in their places -/

/-- Parameters and their values agree, with the reads waiting in `P`: each parameter of a block
is a parameter value naming that block and its index, and each parameter value is in its place,
or waits, with index `0` and once, among the reads `P` of its block. -/
structure Placed (vs : Array ValueDef) (bs : Array Block) (P : Nat → List Nat) : Prop where
  params : ∀ j i v, paramAt bs j i = some v → ∃ t, vs[v]? = some (.param j i t)
  pending : ∀ j v, v ∈ P j → (∃ t, vs[v]? = some (.param j 0 t)) ∧ paramAt bs j 0 ≠ some v
  nodup : ∀ j, (P j).Nodup
  whole : ∀ v j i t, vs[v]? = some (.param j i t) → paramAt bs j i = some v ∨ v ∈ P j

namespace Placed

variable {vs : Array ValueDef} {bs : Array Block} {P : Nat → List Nat}

theorem perm {Q : Nat → List Nat} (h : Placed vs bs P) (hPQ : ∀ j, (P j).Perm (Q j)) : Placed vs bs Q :=
  ⟨h.params, fun j v hv => h.pending j v ((hPQ j).mem_iff.mpr hv),
    fun j => (hPQ j).nodup_iff.mp (h.nodup j),
    fun v j i t hv => (h.whole v j i t hv).imp_right (hPQ j).mem_iff.mp⟩

theorem lt_of_mem (h : Placed vs bs P) {j v : Nat} (hv : v ∈ P j) : v < vs.size := by
  obtain ⟨⟨t, ht⟩, -⟩ := h.pending j v hv
  exact (Array.getElem?_eq_some_iff.mp ht).1

theorem lt_of_param (h : Placed vs bs P) {j i v : Nat} (hv : paramAt bs j i = some v) : v < vs.size := by
  obtain ⟨t, ht⟩ := h.params j i v hv
  exact (Array.getElem?_eq_some_iff.mp ht).1

/-- Values that are not parameters, made after the others. -/
theorem append (h : Placed vs bs P) {ds : Array ValueDef} (hds : ∀ d ∈ ds, d.isParam = false) :
    Placed (vs ++ ds) bs P := by
  have hold : ∀ {v}, v < vs.size → (vs ++ ds)[v]? = vs[v]? := Array.getElem?_append_left
  refine ⟨fun j i v hv => ?_, fun j v hv => ?_, h.nodup, fun v j i t hv => ?_⟩
  · rw [hold (h.lt_of_param hv)]
    exact h.params j i v hv
  · rw [hold (h.lt_of_mem hv)]
    exact h.pending j v hv
  · by_cases hlt : v < vs.size
    · rw [hold hlt] at hv
      exact h.whole v j i t hv
    · rw [Array.getElem?_append_right (Nat.le_of_not_lt hlt)] at hv
      have hnot := hds _ (Array.mem_of_getElem? hv)
      simp [ValueDef.isParam] at hnot

/-- A parameter of block `j` made for a read there, to wait until `j` is sealed. -/
theorem pushPending (h : Placed vs bs P) (j : Nat) (t : ValType) :
    Placed (vs.push (.param j 0 t)) bs fun i => P i ++ if i = j then [vs.size] else [] := by
  have hold : ∀ {v}, v < vs.size → (vs.push (.param j 0 t))[v]? = vs[v]? := fun hv => by
    rw [Array.getElem?_push, if_neg (Nat.ne_of_lt hv)]
  refine ⟨fun i k v hv => ?_, fun i v hv => ?_, fun i => ?_, fun v i k t' hv => ?_⟩
  · rw [hold (h.lt_of_param hv)]
    exact h.params i k v hv
  · rcases List.mem_append.mp hv with hold' | hnew
    · rw [hold (h.lt_of_mem hold')]
      exact h.pending i v hold'
    · by_cases hij : i = j
      · subst hij
        simp only [if_true, List.mem_singleton] at hnew
        subst hnew
        refine ⟨⟨t, by simp⟩, fun hp => ?_⟩
        exact Nat.lt_irrefl _ (h.lt_of_param hp)
      · simp [hij] at hnew
  · refine List.Nodup.append (h.nodup i) (by split <;> simp) ?_
    intro v hv hnew
    split at hnew
    · rw [List.mem_singleton] at hnew
      subst hnew
      exact Nat.lt_irrefl _ (h.lt_of_mem hv)
    · cases hnew
  · rw [Array.getElem?_push] at hv
    split at hv
    · rename_i hvs
      cases hv
      exact .inr (by simp [hvs])
    · exact (h.whole v i k t' hv).imp_right fun hm => List.mem_append_left _ hm

/-- A parameter added to block `blk` at once, after the others. -/
theorem addParam (h : Placed vs bs P) {blk : Nat} (hblk : blk < bs.size) (t : ValType) :
    Placed (vs.push (.param blk bs[blk].params.size t))
      (bs.modify blk fun b => { b with params := b.params.push vs.size }) P := by
  have hold : ∀ {v}, v < vs.size → (vs.push (.param blk bs[blk].params.size t))[v]? = vs[v]? :=
    fun hv => by rw [Array.getElem?_push, if_neg (Nat.ne_of_lt hv)]
  refine ⟨fun j i v hv => ?_, fun j v hv => ?_, h.nodup, fun v j i t' hv => ?_⟩
  · rw [paramAt_pushParam hblk] at hv
    split at hv
    · rename_i hji
      obtain ⟨rfl, rfl⟩ := hji
      cases hv
      exact ⟨t, by simp⟩
    · rw [hold (h.lt_of_param hv)]
      exact h.params j i v hv
  · obtain ⟨⟨t', ht'⟩, hne⟩ := h.pending j v hv
    refine ⟨⟨t', by rw [hold (h.lt_of_mem hv), ht']⟩, ?_⟩
    rw [paramAt_pushParam hblk]
    split
    · intro heq
      cases heq
      exact Nat.lt_irrefl _ (h.lt_of_mem hv)
    · exact hne
  · rw [Array.getElem?_push] at hv
    split at hv
    · rename_i hvs
      cases hv
      exact .inl (by simp [paramAt_pushParam hblk, hvs])
    · rcases h.whole v j i t' hv with hp | hp
      · refine .inl ?_
        rw [paramAt_pushParam hblk]
        split
        · rename_i hji
          obtain ⟨rfl, rfl⟩ := hji
          obtain ⟨t'', ht''⟩ := h.params _ _ v hp
          -- the place after the last parameter holds nothing yet
          simp [paramAt, Array.getElem?_eq_getElem hblk] at hp
        · exact hp
      · exact .inr hp

/-- The first read waiting in block `blk` takes its place, as the next parameter of `blk`, with
that index. -/
theorem complete (h : Placed vs bs P) {blk v : Nat} {r : List Nat} (hblk : blk < bs.size)
    (hP : P blk = v :: r) {g : ValueDef → ValueDef}
    (hg : ∀ b i t, g (.param b i t) = .param b bs[blk].params.size t) :
    Placed (vs.modify v g) (bs.modify blk fun b => { b with params := b.params.push v })
      fun j => if j = blk then r else P j := by
  have hv : v ∈ P blk := by simp [hP]
  obtain ⟨⟨t, ht⟩, hfree⟩ := h.pending blk v hv
  have hnodup := h.nodup blk
  rw [hP, List.nodup_cons] at hnodup
  -- every other value keeps its definition
  have hother : ∀ w, w ≠ v → (vs.modify v g)[w]? = vs[w]? := fun w hw => by
    rw [Array.getElem?_modify, if_neg (Ne.symm hw)]
  have hnew : (vs.modify v g)[v]? = some (.param blk bs[blk].params.size t) := by
    rw [Array.getElem?_modify, if_pos rfl, ht, Option.map_some, hg]
  -- a value waiting elsewhere is not `v`
  have hne : ∀ j w, w ∈ (if j = blk then r else P j) → w ≠ v := by
    intro j w hw hwv
    subst hwv
    split at hw
    · exact hnodup.1 hw
    · rename_i hj
      obtain ⟨⟨t', ht'⟩, -⟩ := h.pending j w hw
      rw [ht] at ht'
      cases ht'
      exact hj rfl
  refine ⟨fun j i w hw => ?_, fun j w hw => ?_, fun j => ?_, fun w j i t' hw => ?_⟩
  · rw [paramAt_pushParam hblk] at hw
    split at hw
    · rename_i hji
      obtain ⟨rfl, rfl⟩ := hji
      cases hw
      exact ⟨t, hnew⟩
    · by_cases hwv : w = v
      · subst hwv
        obtain ⟨t', ht'⟩ := h.params j i w hw
        rw [ht] at ht'
        cases ht'
        exact absurd hw hfree
      · rw [hother w hwv]
        exact h.params j i w hw
  · have hwv := hne j w hw
    have hw' : w ∈ P j := by
      split at hw
      · rename_i hj
        subst hj
        simp [hP, hw]
      · exact hw
    obtain ⟨⟨t', ht'⟩, hfree'⟩ := h.pending j w hw'
    refine ⟨⟨t', by rw [hother w hwv, ht']⟩, ?_⟩
    rw [paramAt_pushParam hblk]
    split
    · intro heq
      cases heq
      exact hwv rfl
    · exact hfree'
  · split
    · exact hnodup.2
    · exact h.nodup j
  · by_cases hwv : w = v
    · subst hwv
      rw [hnew] at hw
      cases hw
      exact .inl (by simp [paramAt_pushParam hblk])
    · rw [hother w hwv] at hw
      rcases h.whole w j i t' hw with hp | hp
      · refine .inl ?_
        rw [paramAt_pushParam hblk]
        split
        · rename_i hji
          obtain ⟨rfl, rfl⟩ := hji
          simp [paramAt, Array.getElem?_eq_getElem hblk] at hp
        · exact hp
      · refine .inr ?_
        split
        · rename_i hj
          subst hj
          rw [hP, List.mem_cons] at hp
          exact hp.resolve_left hwv
        · exact hp

theorem ofParams {bs' : Array Block} (h : Placed vs bs P) (hp : paramAt bs' = paramAt bs) :
    Placed vs bs' P := by
  obtain ⟨h₁, h₂, h₃, h₄⟩ := h
  exact ⟨by rwa [hp], by rwa [hp], h₃, by rwa [hp]⟩

end Placed

/-! ## Operators and picks -/

/-- Operators and picks are where the body expects them: each operator is run by exactly one
block, once, the blocks run nothing else, and each pick names an operator with several results
and one of them. -/
structure Ran (vs : Array ValueDef) (bs : Array Block) : Prop where
  nodup : (instsOf bs).Nodup
  insts : ∀ v, v ∈ instsOf bs ↔ vs[v]?.any ValueDef.isOperator
  picks : ∀ (v src i : Nat) (t : ValType), vs[v]? = some (.pick src i t) →
    ∃ o args ts, vs[src]? = some (.operator o args ts) ∧ 2 ≤ ts.length ∧ i < ts.length

/-- `vs'` changes only parameters of `vs`: it keeps every other value, and adds no other. -/
structure SameOps (vs vs' : Array ValueDef) : Prop where
  kept : ∀ (v : Nat) (d : ValueDef), vs[v]? = some d → d.isParam = false → vs'[v]? = some d
  old : ∀ (v : Nat) (d : ValueDef), vs'[v]? = some d → d.isParam = false → vs[v]? = some d

namespace SameOps

variable {vs vs' vs'' : Array ValueDef}

theorem refl (vs : Array ValueDef) : SameOps vs vs := ⟨fun _ _ h _ => h, fun _ _ h _ => h⟩

theorem trans (h : SameOps vs vs') (h' : SameOps vs' vs'') : SameOps vs vs'' :=
  ⟨fun v d hv hd => h'.kept v d (h.kept v d hv hd) hd, fun v d hv hd => h.old v d (h'.old v d hv hd) hd⟩

theorem push {d : ValueDef} (hd : d.isParam = true) : SameOps vs (vs.push d) := by
  refine ⟨fun v d' hv _ => ?_, fun v d' hv hd' => ?_⟩
  · rw [Array.getElem?_push, if_neg (Nat.ne_of_lt (Array.getElem?_eq_some_iff.mp hv).1), hv]
  · rw [Array.getElem?_push] at hv
    split at hv
    · cases hv
      simp [hd] at hd'
    · exact hv

/-- A parameter changed into another. -/
theorem modify {v : Nat} {g : ValueDef → ValueDef} (hg : ∀ b i t, (g (.param b i t)).isParam = true)
    (hv : ∀ d, vs[v]? = some d → d.isParam = true) : SameOps vs (vs.modify v g) := by
  refine ⟨fun w d hw hd => ?_, fun w d hw hd => ?_⟩
  · rw [Array.getElem?_modify]
    split
    · rename_i hvw
      subst hvw
      simp [hv d hw] at hd
    · exact hw
  · rw [Array.getElem?_modify] at hw
    split at hw
    · rename_i hvw
      subst hvw
      cases hd' : vs[v]? with
      | none => simp [hd'] at hw
      | some d₀ =>
        have hp := hv d₀ hd'
        cases d₀ <;> simp [ValueDef.isParam] at hp
        rw [hd'] at hw
        cases hw
        simp [hg] at hd
    · exact hw

theorem isOperator_eq (h : SameOps vs vs') (v : Nat) :
    vs'[v]?.any ValueDef.isOperator = vs[v]?.any ValueDef.isOperator := by
  -- an operator is not a parameter, so both arrays keep it
  have hop : ∀ d : ValueDef, d.isOperator = true → d.isParam = false := by
    intro d hd
    cases d <;> simp_all [ValueDef.isOperator, ValueDef.isParam]
  apply Bool.eq_iff_iff.mpr
  simp only [Option.any_eq_true]
  constructor
  · rintro ⟨d, hd, hd'⟩
    exact ⟨d, h.old v d hd (hop d hd'), hd'⟩
  · rintro ⟨d, hd, hd'⟩
    exact ⟨d, h.kept v d hd (hop d hd'), hd'⟩

end SameOps

namespace Ran

variable {vs vs' : Array ValueDef} {bs bs' : Array Block}

/-- Changing parameters only, and keeping the operators the blocks run. -/
theorem sameOps (h : Ran vs bs) (hs : SameOps vs vs') (hb : instsOf bs' = instsOf bs) : Ran vs' bs' := by
  refine ⟨hb ▸ h.nodup, fun v => by rw [hb, hs.isOperator_eq v, h.insts v],
    fun v src i t hv => ?_⟩
  obtain ⟨o, args, ts, hsrc, hts⟩ := h.picks v src i t (hs.old v _ hv rfl)
  exact ⟨o, args, ts, hs.kept src _ hsrc rfl, hts⟩

end Ran

namespace Ran

variable {vs : Array ValueDef} {bs : Array Block}

/-- An operator run by block `cur`, with the picks of its results when it has several. -/
theorem emit (h : Ran vs bs) {cur : Nat} (hcur : cur < bs.size) {o : Operator} {args : List Nat}
    {results : List ValType} {picks : Array ValueDef}
    (hpicks : ∀ d ∈ picks, ∃ i t, d = .pick vs.size i t ∧ i < results.length ∧ 2 ≤ results.length) :
    Ran (vs.push (.operator o args results) ++ picks)
      (bs.modify cur fun b => { b with insts := b.insts.push vs.size }) := by
  have hperm := instsOf_pushInst hcur vs.size
  have hfresh : vs.size ∉ instsOf bs := fun hv => by simpa using (h.insts vs.size).mp hv
  have hsize : (vs.push (.operator o args results)).size = vs.size + 1 := Array.size_push ..
  -- what the new array holds at `v`: the old values, the operator, then the picks
  have hat : ∀ v, (vs.push (.operator o args results) ++ picks)[v]? =
      if v < vs.size then vs[v]? else if v = vs.size then some (.operator o args results)
      else picks[v - (vs.size + 1)]? := by
    intro v
    rw [Array.getElem?_append, hsize, Array.getElem?_push]
    by_cases hlt : v < vs.size
    · simp [hlt, Nat.lt_succ_of_lt hlt, Nat.ne_of_lt hlt]
    · by_cases heq : v = vs.size
      · simp [heq]
      · have hge : ¬ v < vs.size + 1 := by omega
        simp [hlt, heq, hge]
  refine ⟨hperm.nodup_iff.mpr (List.nodup_append.mpr ⟨h.nodup, by simp, ?_⟩), fun v => ?_,
    fun v src i t hv => ?_⟩
  · intro a ha b hb hab
    simp only [List.mem_singleton] at hb
    subst hb hab
    exact hfresh ha
  · rw [hperm.mem_iff, List.mem_append, List.mem_singleton, h.insts v, hat v]
    by_cases hlt : v < vs.size
    · simp [hlt, Nat.ne_of_lt hlt]
    · by_cases heq : v = vs.size
      · simp [heq, ValueDef.isOperator]
      · simp only [hlt, heq, if_false]
        have hnone : vs[v]? = none := Array.getElem?_eq_none (Nat.le_of_not_lt hlt)
        rw [hnone]
        cases hp : picks[v - (vs.size + 1)]? with
        | none => simp
        | some d =>
          obtain ⟨i, t, rfl, -⟩ := hpicks d (Array.mem_of_getElem? hp)
          simp [ValueDef.isOperator]
  · rw [hat v] at hv
    split at hv
    · obtain ⟨o', args', ts, hsrc, hts⟩ := h.picks v src i t hv
      refine ⟨o', args', ts, ?_, hts⟩
      rw [hat src, if_pos (Array.getElem?_eq_some_iff.mp hsrc).1, hsrc]
    · split at hv
      · cases hv
      · obtain ⟨i', t', hd, hi, hlen⟩ := hpicks _ (Array.mem_of_getElem? hv)
        cases hd
        exact ⟨o, args, results, by simp [hat], hlen, hi⟩

end Ran

/-! ## The values of a lowering -/

/-- Emitting an operator adds its value, then one pick of each of its results when it has
several, and runs the operator in the current block. -/
theorem Lower.emit_picks {s : Lowering} {o : Operator} {args : List Nat} {results : List ValType}
    {vs : List Nat} {s' : Lowering} (h : (emit o args results).run s = .ok (vs, s')) :
    ∃ picks : Array ValueDef,
      (∀ d ∈ picks, ∃ i t, d = .pick s.values.size i t ∧ i < results.length ∧ 2 ≤ results.length) ∧
      s' = { s with
        values := s.values.push (.operator o args results) ++ picks
        blocks := s.blocks.modify s.cur fun b => { b with insts := b.insts.push s.values.size } } ∧
      ∀ x ∈ vs, x < s'.values.size := by
  simp only [emit, StateT.run_bind, newValue_run, get_run, modifyBlock_run, ok_bind] at h
  rcases results with _ | ⟨t, _ | ⟨t', rest⟩⟩
  · cases h
    exact ⟨#[], by simp, by simp, by simp⟩
  · cases h
    exact ⟨#[], by simp, by simp, by simp⟩
  · dsimp only at h
    rw [mapM_newPick] at h
    cases h
    refine ⟨_, ?_, rfl, ?_⟩
    · intro d hd
      simp only [List.mem_toArray, List.mem_map] at hd
      obtain ⟨⟨a, k⟩, hp, rfl⟩ := hd
      have hk := List.mem_zipIdx_iff_getElem?.mp hp
      exact ⟨k, a, rfl, (List.getElem?_eq_some_iff.mp hk).1, by simp⟩
    · intro x hx
      simp only [List.mem_range'_1] at hx
      simp only [Array.size_append, Array.size_push, List.size_toArray, List.length_map,
        List.length_zipIdx, List.length_cons] at hx ⊢
      omega

namespace Lowering

/-- The values of a lowering are where the body expects them, with the reads `E` waiting beside
those the blocks record; a block records reads only while it is not sealed. -/
structure Made (s : Lowering) (E : Nat → List Nat) : Prop where
  placed : Placed s.values s.blocks fun j => pendingAt s.states j ++ E j
  settled : ∀ j, sealedAt s.states j = true → pendingAt s.states j = []
  ran : Ran s.values s.blocks

variable {s s' : Lowering} {E : Nat → List Nat}

namespace Made

theorem of_eq {E' : Nat → List Nat} (h : s.Made E) (hE : E = E') : s.Made E' := hE ▸ h

/-- A step that changes no value, parameter, operator run, waiting read or sealing. -/
theorem congr (h : s.Made E) (hv : s'.values = s.values) (hp : paramAt s'.blocks = paramAt s.blocks)
    (hi : instsOf s'.blocks = instsOf s.blocks) (hpend : pendingAt s'.states = pendingAt s.states)
    (hsealed : sealedAt s'.states = sealedAt s.states) : s'.Made E := by
  refine ⟨?_, fun j hj => ?_, ?_⟩
  · rw [hv, hpend]
    exact h.placed.ofParams hp
  · rw [hsealed] at hj
    rw [hpend]
    exact h.settled j hj
  · rw [hv]
    exact h.ran.sameOps (.refl _) hi

theorem newBlock (h : s.Made E) :
    ({ s with blocks := s.blocks.push {}, states := s.states.push {} } : Lowering).Made E :=
  h.congr rfl paramAt_push_empty instsOf_push_empty pendingAt_push_empty sealedAt_push_empty

/-- A change to the terminators alone. -/
theorem setTerms (h : s.Made E) {blk : Nat} {f : Block → Block} (hp : ∀ b, (f b).params = b.params)
    (hi : ∀ b, (f b).insts = b.insts) : ({ s with blocks := s.blocks.modify blk f } : Lowering).Made E :=
  h.congr rfl (paramAt_modify hp) (instsOf_modify hi) rfl rfl

/-- A change to the local definitions and edges alone. -/
theorem setStates (h : s.Made E) {sts : Array BlockState} (hpend : pendingAt sts = pendingAt s.states)
    (hsealed : sealedAt sts = sealedAt s.states) : ({ s with states := sts } : Lowering).Made E :=
  h.congr rfl rfl rfl hpend hsealed

/-- A parameter added to block `blk` at once, after the others. -/
theorem addParam (h : s.Made E) {blk : Nat} (hblk : blk < s.blocks.size) (t : ValType) :
    ({ s with
        values := s.values.push (.param blk (s.blocks[blk]?.getD {}).params.size t)
        blocks := s.blocks.modify blk fun b => { b with params := b.params.push s.values.size } } :
      Lowering).Made E := by
  rw [Array.getElem?_eq_getElem hblk, Option.getD_some]
  exact ⟨h.placed.addParam hblk t, h.settled,
    h.ran.sameOps (SameOps.push rfl) (instsOf_modify fun _ => rfl)⟩

/-- A parameter made for a read in block `blk`, not sealed, waiting there. -/
theorem pending (h : s.Made E) {blk : Nat} (hblk : blk < s.states.size)
    (hsealed : sealedAt s.states blk = false) (t : ValType) {f : BlockState → BlockState}
    (hf : ∀ st, (f st).incomplete = st.incomplete.push (s.values.size, idx))
    (hfs : ∀ st, (f st).sealed = st.sealed) :
    ({ s with values := s.values.push (.param blk 0 t), states := s.states.modify blk f } :
      Lowering).Made E := by
  have hpend := pendingAt_pushIncomplete hblk hf
  refine ⟨?_, fun j hj => ?_, h.ran.sameOps (SameOps.push rfl) rfl⟩
  · refine (h.placed.pushPending blk t).perm fun j => ?_
    dsimp only
    rw [hpend j, List.append_assoc, List.append_assoc]
    exact List.Perm.append_left _ List.perm_append_comm
  · dsimp only at hj ⊢
    rw [sealedAt_modify hfs] at hj
    have hne : j ≠ blk := fun hj' => by rw [hj'] at hj; simp [hsealed] at hj
    rw [hpend j, h.settled j hj, if_neg hne]
    rfl

/-- Sealing block `blk`: the reads waiting there are set apart, to be completed. -/
theorem sealing (h : s.Made fun _ => []) {blk : Nat} (hblk : blk < s.states.size) :
    ({ s with states := s.states.modify blk fun st => { st with sealed := true, incomplete := #[] } } :
      Lowering).Made fun j => if j = blk then pendingAt s.states blk else [] := by
  have hpend : ∀ j, pendingAt (s.states.modify blk fun st => { st with sealed := true, incomplete := #[] }) j =
      if j = blk then [] else pendingAt s.states j :=
    pendingAt_clear fun _ => rfl
  refine ⟨?_, fun j hj => ?_, h.ran⟩
  · refine h.placed.perm fun j => List.Perm.of_eq ?_
    dsimp only
    rw [hpend j]
    by_cases hj : j = blk
    · subst hj
      simp
    · simp [hj]
  · dsimp only at hj ⊢
    rw [hpend j]
    rw [sealedAt_seal hblk] at hj
    by_cases hjb : j = blk
    · simp [hjb]
    · simp only [hjb, if_false]
      have hj' : sealedAt s.states j = true := by simpa [Ne.symm hjb] using hj
      exact h.settled j hj'

/-- The first read set apart for block `blk` takes its place, as the next parameter of `blk`. -/
theorem complete (h : s.Made E) {blk v : Nat} {r : List Nat} (hblk : blk < s.blocks.size)
    (hpend : pendingAt s.states blk = []) (hE : E blk = v :: r) {g : ValueDef → ValueDef}
    (hg : ∀ b i t, g (.param b i t) = .param b s.blocks[blk].params.size t) :
    ({ s with
        values := s.values.modify v g
        blocks := s.blocks.modify blk fun b => { b with params := b.params.push v } } :
      Lowering).Made fun j => if j = blk then r else E j := by
  have hP : pendingAt s.states blk ++ E blk = v :: r := by rw [hpend, hE, List.nil_append]
  have hv : v ∈ pendingAt s.states blk ++ E blk := by simp [hP]
  obtain ⟨⟨t, ht⟩, -⟩ := h.placed.pending blk v hv
  refine ⟨?_, h.settled, ?_⟩
  · refine (h.placed.complete hblk hP hg).perm fun j => List.Perm.of_eq ?_
    by_cases hj : j = blk
    · subst hj
      simp [hpend]
    · simp [hj]
  · refine h.ran.sameOps (SameOps.modify (fun b i t => by simp [hg, ValueDef.isParam]) ?_)
      (instsOf_modify fun _ => rfl)
    intro d hd
    rw [ht] at hd
    cases hd
    rfl

/-- An operator run in the current block, with the picks of its results. -/
theorem emit (h : s.Made E) (hcur : s.cur < s.blocks.size) {o : Operator} {args : List Nat}
    {results : List ValType} {picks : Array ValueDef}
    (hpicks : ∀ d ∈ picks, ∃ i t, d = .pick s.values.size i t ∧ i < results.length ∧ 2 ≤ results.length) :
    ({ s with
        values := s.values.push (.operator o args results) ++ picks
        blocks := s.blocks.modify s.cur fun b => { b with insts := b.insts.push s.values.size } } :
      Lowering).Made E := by
  refine ⟨?_, h.settled, h.ran.emit hcur hpicks⟩
  have hnew : ∀ d ∈ #[ValueDef.operator o args results] ++ picks, d.isParam = false := by
    intro d hd
    rcases Array.mem_append.mp hd with hd | hd
    · simp only [Array.mem_singleton] at hd
      subst hd
      rfl
    · obtain ⟨i, t, rfl, -⟩ := hpicks d hd
      rfl
  dsimp only
  rw [Array.push_eq_append, Array.append_assoc]
  exact (h.placed.append hnew).ofParams (paramAt_modify fun _ => rfl)

end Made

/-! ## Reading locals and sealing -/

/-- What reading a local with `fuel` does, when it succeeds: it resolves locals, makes only
parameters, keeps every value made and in its place, and gives a value already made. -/
def ReadsMade (fuel : Nat) : Prop :=
  ∀ (blk : Nat) (idx : UInt32) (s : Lowering) (v : Nat) (s' : Lowering) (E : Nat → List Nat),
    s.Linked → s.Bounded → s.Made E → blk < s.blocks.size → s.retBlock ≠ some blk →
    (readLocal fuel blk idx).run s = .ok (v, s') →
    Grows [] s s' ∧ s'.Bounded ∧ s'.Made E ∧ SameOps s.values s'.values ∧ v < s'.values.size

/-- What passing a local along the edges into a block with `fuel` does, when it succeeds. -/
def PassesMade (fuel : Nat) : Prop :=
  ∀ (blk : Nat) (idx : UInt32) (s : Lowering) (s' : Lowering) (E : Nat → List Nat),
    s.Linked → s.Bounded → s.Made E → (addPredArgs fuel blk idx).run s = .ok ((), s') →
    Grows [] s s' ∧ s'.Bounded ∧ s'.Made E ∧ SameOps s.values s'.values

theorem readsMade_zero : ReadsMade 0 := by
  intro blk idx s v s' E _ _ _ _ _ h
  rw [readLocal] at h
  cases h

theorem passesMade_zero : PassesMade 0 := by
  intro blk idx s s' E _ _ _ h
  rw [addPredArgs] at h
  cases h

theorem readsMade_succ {fuel : Nat} (hread : ReadsMade fuel) (hpass : PassesMade fuel) :
    ReadsMade (fuel + 1) := by
  intro blk idx s v s' E hl hb hm hblk hret h
  have hblk' : blk < s.states.size := hl.sizes ▸ hblk
  obtain ⟨st, hst⟩ : ∃ st, s.states[blk]? = some st := ⟨_, Array.getElem?_eq_getElem hblk'⟩
  have hmem : st ∈ s.states := Array.mem_of_getElem? hst
  rw [readLocal] at h
  simp only [StateT.run_bind, stateAt_run, hst, Option.getD_some, ok_bind] at h
  split at h
  · -- the block defines the local
    rename_i v₀ hv₀
    rw [pure_run] at h
    cases h
    exact ⟨Grows.refl [] s, hb, hm, .refl _, (hb.states st hmem).1 idx _ hv₀⟩
  · simp only [StateT.run_bind, get_run, ok_bind] at h
    split at h
    · -- an unsealed block: a parameter that waits until it is sealed
      rename_i hunsealed
      simp only [StateT.run_bind, newValue_run, ok_bind, modifyState_run, pure_run] at h
      cases h
      have hsealed : sealedAt s.states blk = false := by simpa [sealedAt, hst] using hunsealed
      refine ⟨(Grows.pushValue s _).trans (Grows.modifyState _ blk (by intro; exact ⟨rfl, rfl⟩)),
        ?_, hm.pending hblk' hsealed _ (fun _ => rfl) (fun _ => rfl), .push rfl, by simp⟩
      refine (hb.pushValue _ (by simp [ValueDef.operands])).modifyState blk ?_
      intro st' hst'
      refine ⟨(BlockState.Below.define hst' idx (by simp)).1, fun p hp => ?_⟩
      rcases Array.mem_push.mp hp with hp | rfl
      · exact hst'.2 p hp
      · simp
    · split at h
      · -- one predecessor: the value there
        rw [StateT.run_bind] at h
        obtain ⟨⟨v₁, s₁⟩, h₁, h⟩ := bind_eq_ok h
        simp only [StateT.run_bind, defineLocal_run, ok_bind, pure_run] at h
        cases h
        have hp : st.preds[0] ∈ predsAt s.states blk := by
          rw [predsAt_eq_getD, hst, Option.getD_some]
          exact Array.mem_toList_iff.mpr (Array.getElem_mem _)
        obtain ⟨hsrc, hsrcret⟩ := hl.src_of_pred hp
        obtain ⟨hg, hb₁, hm₁, hs₁, hv₁⟩ := hread _ idx s _ s₁ E hl hb hm hsrc hsrcret h₁
        exact ⟨hg.trans (Grows.modifyState s₁ blk (by intro; exact ⟨rfl, rfl⟩)),
          hb₁.modifyState blk fun st' hst' => BlockState.Below.define hst' idx hv₁,
          hm₁.setStates (pendingAt_modify fun _ => rfl) (sealedAt_modify fun _ => rfl), hs₁, hv₁⟩
      · -- several: a new parameter, with the value passed along every edge into the block
        rename_i hsealed' _
        have hsealed : sealedAt s.states blk = true := by
          simpa [sealedAt, hst] using hsealed'
        rw [StateT.run_bind] at h
        obtain ⟨⟨u, s₀⟩, h₀, h⟩ := bind_eq_ok h
        rw [StateT.run_bind] at h
        obtain ⟨⟨_, s₁⟩, h₁, h⟩ := bind_eq_ok h
        rw [StateT.run_bind] at h
        obtain ⟨⟨_, s₂⟩, h₂, h⟩ := bind_eq_ok h
        rw [pure_run] at h
        cases h
        rw [addParam_run] at h₀
        obtain ⟨hu, hs₀⟩ := Prod.mk.inj (Except.ok.inj h₀)
        rw [defineLocal_run] at h₁
        obtain ⟨-, hs₁⟩ := Prod.mk.inj (Except.ok.inj h₁)
        have hg₀ : Grows [] s s₀ := hs₀ ▸ Grows.addParam s hsealed hret _
        have hg₁ : Grows [] s₀ s₁ := hs₁ ▸ Grows.modifyState s₀ blk (by intro; exact ⟨rfl, rfl⟩)
        have hu₀ : u < s₀.values.size := by
          rw [← hs₀, ← hu]
          simp
        have hb₀ : s₀.Bounded := by
          rw [← hs₀]
          refine (hb.pushValue _ (by simp [ValueDef.operands])).modifyBlock blk ?_
          intro b hbelow
          refine ⟨fun w hw => ?_, hbelow.2.1, hbelow.2.2⟩
          rcases Array.mem_push.mp hw with hw | rfl
          · exact hbelow.1 w hw
          · simp
        have hb₁ : s₁.Bounded := by
          rw [← hs₁]
          exact hb₀.modifyState blk fun st' hst' => BlockState.Below.define hst' idx hu₀
        have hm₁ : s₁.Made E := by
          rw [← hs₁, ← hs₀]
          exact (hm.addParam hblk _).setStates (pendingAt_modify fun _ => rfl) (sealedAt_modify fun _ => rfl)
        have hsame : SameOps s.values s₁.values := by
          rw [← hs₁, ← hs₀]
          exact .push rfl
        obtain ⟨hg₂, hb₂, hm₂, hs₂⟩ := hpass blk idx s₁ s₂ E (hl.grows (hg₀.trans hg₁)) hb₁ hm₁ h₂
        refine ⟨(hg₀.trans hg₁).trans hg₂, hb₂, hm₂, hsame.trans hs₂, ?_⟩
        calc u < s₀.values.size := hu₀
          _ ≤ s₂.values.size := Nat.le_trans hg₁.values hg₂.values

theorem passesMade_succ {fuel : Nat} (hread : ReadsMade fuel) : PassesMade (fuel + 1) := by
  intro blk idx s s' E hl hb hm h
  rw [addPredArgs] at h
  simp only [StateT.run_bind, stateAt_run, ok_bind] at h
  rw [← Array.forIn_toList, ← predsAt_eq_getD] at h
  obtain ⟨⟨_, t⟩, hloop, hfin⟩ := bind_eq_ok h
  rw [pure_run] at hfin
  cases hfin
  -- each edge into the block, in turn, receives the value
  refine forIn_run_invariant (fun _ _ t => Grows [] s t ∧ t.Bounded ∧ t.Made E ∧
      SameOps s.values t.values) ?_ ⟨Grows.refl [] s, hb, hm, .refl _⟩ hloop
  rintro pre p rest _ t r t' hpre ⟨hg, hbt, hmt, hst⟩ hstep
  rw [StateT.run_bind] at hstep
  obtain ⟨⟨v, t₁⟩, h₁, hstep⟩ := bind_eq_ok hstep
  simp only [StateT.run_bind, modifyBlock_run, ok_bind, pure_run] at hstep
  cases hstep
  have hlt := hl.grows hg
  have hp : p ∈ predsAt t.states blk := by
    rw [hg.preds, ← hpre]
    simp
  obtain ⟨hsrc, hsrcret⟩ := hlt.src_of_pred hp
  obtain ⟨hg₁, hb₁, hm₁, hs₁, hv⟩ := hread p.src idx t v t₁ E hlt hbt hmt hsrc hsrcret h₁
  refine ⟨_, rfl, hg.trans (hg₁.trans (Grows.addArg t₁ p v)), ?_,
    hm₁.setTerms (fun _ => rfl) (fun _ => rfl), hst.trans hs₁⟩
  refine hb₁.modifyBlock p.src fun b hbelow => ⟨hbelow.1, hbelow.2.1, fun term hterm => ?_⟩
  obtain ⟨t₀, ht₀, rfl⟩ := Option.map_eq_some_iff.mp hterm
  exact (hbelow.2.2 t₀ ht₀).addArg p.edge hv

/-- Reading a local and passing it along edges, with any fuel. -/
theorem resolvesMade (fuel : Nat) : ReadsMade fuel ∧ PassesMade fuel := by
  induction fuel with
  | zero => exact ⟨readsMade_zero, passesMade_zero⟩
  | succ fuel ih => exact ⟨readsMade_succ ih.1 ih.2, passesMade_succ ih.1⟩

/-- Sealing a block puts the reads that waited there in their places, each with its arguments on
every edge into the block. -/
theorem sealBlock_made {blk : Nat} (hl : s.Linked) (hb : s.Bounded) (hm : s.Made fun _ => [])
    (hblk : blk < s.blocks.size) (h : (sealBlock blk).run s = .ok ((), s')) :
    Grows [blk] s s' ∧ s'.Bounded ∧ s'.Made (fun _ => []) ∧ SameOps s.values s'.values ∧
      sealedAt s'.states blk = true := by
  have hsize : blk < s.states.size := hl.sizes ▸ hblk
  obtain ⟨st, hst⟩ : ∃ st, s.states[blk]? = some st := ⟨_, Array.getElem?_eq_getElem hsize⟩
  have hmem : st ∈ s.states := Array.mem_of_getElem? hst
  rw [sealBlock] at h
  simp only [StateT.run_bind, stateAt_run, hst, Option.getD_some, ok_bind] at h
  split at h
  · -- already sealed
    rename_i hsealed
    rw [pure_run] at h
    cases h
    exact ⟨Grows.refl _ s, hb, hm, .refl _, by simp [sealedAt, hst, hsealed]⟩
  · simp only [StateT.run_bind, modifyState_run, ok_bind] at h
    rw [← Array.forIn_toList] at h
    obtain ⟨⟨_, t⟩, hloop, hfin⟩ := bind_eq_ok h
    rw [pure_run] at hfin
    cases hfin
    have hwait : pendingAt s.states blk = st.incomplete.toList.map (·.1) := by
      simp [pendingAt, hst]
    -- the reads still waiting are those after the ones completed
    have key := forIn_run_invariant (fun pre _ t => Grows [blk] s t ∧ t.Bounded ∧
        t.Made (fun j => if j = blk then (st.incomplete.toList.drop pre.length).map (·.1) else []) ∧
        SameOps s.values t.values ∧ sealedAt t.states blk = true) ?_
      ⟨Grows.sealBlock s blk, hb.modifyState blk fun st' hst' => ⟨hst'.1, by simp⟩,
        by simpa [hwait] using hm.sealing hsize, .refl _, by simp [sealedAt_seal hsize]⟩ hloop
    · obtain ⟨hg, hb', hm', hs', hsealed⟩ := key
      refine ⟨hg, hb', ?_, hs', hsealed⟩
      simpa [List.drop_eq_nil_of_le] using hm'
    rintro pre p rest _ t r t' hpre ⟨hg, hbt, hmt, hst', hsealed⟩ hstep
    have hdrop : st.incomplete.toList.drop pre.length = p :: rest := by
      rw [← hpre, List.drop_left]
    have hdrop' : st.incomplete.toList.drop (pre ++ [p]).length = rest := by
      rw [← hpre, List.length_append, List.length_singleton, ← List.drop_drop, List.drop_left]
      rfl
    have hp : p ∈ st.incomplete := by
      rw [← Array.mem_toList_iff, ← hpre]
      simp
    have hv : p.1 < t.values.size :=
      Nat.lt_of_lt_of_le ((hb.states st hmem).2 p hp) hg.values
    have htblk : blk < t.blocks.size := hg.blocks ▸ hblk
    simp only [StateT.run_bind, blockAt_run, ok_bind, modify_run, modifyBlock_run,
      lookupFuel_run] at hstep
    obtain ⟨⟨_, t₂⟩, h₂, hstep⟩ := bind_eq_ok hstep
    rw [pure_run] at hstep
    cases hstep
    rw [Array.getElem?_eq_getElem htblk, Option.getD_some] at h₂
    have key := (resolvesMade _).2 blk p.2 _ t₂ (fun j => if j = blk then rest.map (·.1) else [])
      ?_ ?_ ?_ h₂
    · obtain ⟨hg₂, hb₂, hm₂, hs₂⟩ := key
      refine ⟨_, rfl, ((hg.trans (Grows.completeParam t blk p.1)).trans hg₂).mono (by simp), hb₂,
        by rwa [hdrop'], hst'.trans (SameOps.trans ?_ hs₂), ?_⟩
      · dsimp only
        apply SameOps.modify
        · intro b i ty
          rfl
        intro d hd
        obtain ⟨⟨t₀, ht₀⟩, -⟩ := hmt.placed.pending blk p.1
          (by simp [hdrop, hmt.settled blk hsealed])
        rw [ht₀] at hd
        cases hd
        rfl
      · rw [hg₂.sealed blk List.not_mem_nil]
        exact hsealed
    · exact (hl.grows hg).grows (Grows.completeParam t blk p.1)
    · exact hbt.completeParam blk hv _ (by intro d; cases d <;> rfl)
    · -- the first read still waiting takes its place
      rw [hdrop] at hmt
      have hE : (fun j => if j = blk then (p :: rest).map (·.1) else ([] : List Nat)) blk =
          p.1 :: rest.map (·.1) := by simp
      refine (hmt.complete htblk (hmt.settled blk hsealed) hE ?_).of_eq ?_
      · intro b i ty
        rfl
      · funext j
        by_cases hj : j = blk <;> simp [hj]

end Lowering

end WasmImage.Ssa
