import WasmImage.Ssa.Lower
import WasmImage.Proofs.Loops

/-!
# The steps of lowering

Lowering runs in a state monad over `Except`. Each primitive step is given here as the state it
leaves (`newBlock_run`, `terminate_run`, ...), so that proofs about the steps built from them
never unfold a primitive again. The blocks of a lowering are read through a few accessors
(`termAt`, `paramCount`, `predsAt`, `sealedAt`, `edgeAt`), each with a lemma for every kind of
update lowering makes to its array.

A terminator's *shape* forgets the arguments of its edges. Adding an argument to an edge, as
lowering does when a block gains a parameter, keeps the shape.
-/

namespace WasmImage.Ssa

open Wasm

/-! ## Edges and their arguments -/

/-- The edge with one more argument. -/
def Target.withArg (t : Target) (v : Nat) : Target := { t with args := t.args ++ [v] }

namespace Terminator

/-- The terminator with the arguments of its edges dropped. -/
def shape : Terminator → Terminator
  | .br t => .br ⟨t.block, []⟩
  | .condBr c t f => .condBr c ⟨t.block, []⟩ ⟨f.block, []⟩
  | .select i ts d => .select i (ts.map fun t => ⟨t.block, []⟩) ⟨d.block, []⟩
  | t => t

theorem getElem?_successors_addArg (t : Terminator) (i v k : Nat) :
    (t.addArg i v).successors[k]? =
      t.successors[k]?.map fun e => if i = k then e.withArg v else e := by
  cases t with
  | ret vals => simp [addArg, successors]
  | br e => rcases i with _ | i <;> rcases k with _ | k <;> simp [addArg, successors, Target.withArg]
  | condBr c e f =>
    rcases i with _ | _ | i <;> rcases k with _ | _ | k <;> simp [addArg, successors, Target.withArg]
  | select idx ts d =>
    simp only [addArg, successors]
    by_cases hi : i < ts.length
    · simp only [hi, if_true, List.getElem?_append, List.length_modify, List.getElem?_modify]
      split
      · cases ts[k]? <;> simp [Target.withArg]
      · rename_i hk
        have hne : i ≠ k := by omega
        simp [hne]
    · by_cases hlen : i = ts.length
      · subst hlen
        simp only [Nat.lt_irrefl, if_false, if_true, List.getElem?_append]
        split
        · rename_i hk
          simp [Nat.ne_of_gt hk]
        · rename_i hk
          rcases Nat.lt_or_ge ts.length k with hk' | hk'
          · simp [Nat.ne_of_lt hk', Nat.sub_ne_zero_of_lt hk']
          · have hk : k = ts.length := by omega
            subst hk
            simp [Target.withArg]
      · simp only [hi, hlen, if_false, List.getElem?_append]
        split
        · rename_i hk
          have hne : i ≠ k := by omega
          simp [hne]
        · rename_i hk
          rcases Nat.lt_or_ge (ts.length + 1) (k + 1) with hk' | hk'
          · simp [show k - ts.length ≠ 0 by omega]
          · have hk : k = ts.length := by omega
            subst hk
            simp [hlen]
  | unreachable => simp [addArg, successors]

theorem successors_addArg (t : Terminator) (i v : Nat) :
    (t.addArg i v).successors = t.successors.modify i (·.withArg v) := by
  apply List.ext_getElem?
  intro k
  rw [getElem?_successors_addArg, List.getElem?_modify]
  rfl

/-- Modifying an element in a way `g` does not see is not seen by mapping `g`. -/
theorem map_modify_of {α β : Type} {f : α → α} {g : α → β} (hf : ∀ a, g (f a) = g a)
    (l : List α) (i : Nat) : (l.modify i f).map g = l.map g := by
  apply List.ext_getElem?
  intro k
  simp only [List.getElem?_map, List.getElem?_modify]
  cases l[k]? <;> simp only [Option.map_none, Option.map_some, Option.map_eq_map]
  split <;> simp [hf]

theorem shape_addArg (t : Terminator) (i v : Nat) : (t.addArg i v).shape = t.shape := by
  cases t with
  | ret vals => rfl
  | br e => by_cases hi : i = 0 <;> simp [addArg, shape, hi]
  | condBr c e f =>
    by_cases h0 : i = 0
    · simp [addArg, shape, h0]
    · by_cases h1 : i = 1 <;> simp [addArg, shape, h0, h1]
  | select idx ts d =>
    simp only [addArg]
    split
    · simp only [shape]
      congr 1
      refine map_modify_of ?_ ts i
      intro
      rfl
    · split <;> rfl
  | unreachable => rfl

end Terminator

/-- The values an operator value applies its operator to; none for the other values. -/
def ValueDef.operands : ValueDef → List Nat
  | .operator _ args _ => args
  | _ => []

/-- A property kept by `f` holds of every element of an array modified by `f`. -/
theorem forall_mem_modify {α : Type} {P : α → Prop} {a : Array α} (ha : ∀ x ∈ a, P x)
    {f : α → α} (hf : ∀ x, P x → P (f x)) (i : Nat) : ∀ x ∈ a.modify i f, P x := by
  intro x hx
  obtain ⟨k, hk, rfl⟩ := Array.mem_iff_getElem.mp hx
  rw [Array.getElem_modify]
  have hk' : k < a.size := by simpa using hk
  split
  · exact hf _ (ha _ (Array.getElem_mem hk'))
  · exact ha _ (Array.getElem_mem hk')

theorem mem_of_mem_extract {α : Type} {a : Array α} {x : α} {i j : Nat} (hx : x ∈ a.extract i j) :
    x ∈ a := by
  obtain ⟨k, hk, rfl⟩ := Array.mem_extract_iff_getElem.mp hx
  exact Array.getElem_mem _

/-! ## Reading the blocks of a lowering -/

/-- The terminator of block `j`, if the block exists and has one. -/
def termAt (bs : Array Block) (j : Nat) : Option Terminator := bs[j]?.bind (·.term)

/-- The number of parameters of block `j`, none for a block that does not exist. -/
def paramCount (bs : Array Block) (j : Nat) : Nat := (bs[j]?.map (·.params.size)).getD 0

/-- The edges recorded into block `j`. -/
def predsAt (sts : Array BlockState) (j : Nat) : List PredEdge :=
  (sts[j]?.map (·.preds.toList)).getD []

/-- Whether block `j` is sealed. -/
def sealedAt (sts : Array BlockState) (j : Nat) : Bool := (sts[j]?.map (·.sealed)).getD false

/-- The edge `e`: the target that the terminator of block `e.src` gives as its edge `e.edge`. -/
def edgeAt (bs : Array Block) (e : PredEdge) : Option Target :=
  (termAt bs e.src).bind (·.successors[e.edge]?)

section Accessors

variable {bs : Array Block} {sts : Array BlockState} {i j : Nat}

/-! A new empty block is invisible to every accessor. -/

@[simp] theorem termAt_push_empty : termAt (bs.push {}) = termAt bs := by
  funext j
  simp only [termAt, Array.getElem?_push]
  split
  · rename_i h
    simp [h]
  · rfl

@[simp] theorem paramCount_push_empty : paramCount (bs.push {}) = paramCount bs := by
  funext j
  simp only [paramCount, Array.getElem?_push]
  split
  · rename_i h
    simp [h]
  · rfl

@[simp] theorem predsAt_push_empty : predsAt (sts.push {}) = predsAt sts := by
  funext j
  simp only [predsAt, Array.getElem?_push]
  split
  · rename_i h
    simp [h]
  · rfl

@[simp] theorem sealedAt_push_empty : sealedAt (sts.push {}) = sealedAt sts := by
  funext j
  simp only [sealedAt, Array.getElem?_push]
  split
  · rename_i h
    simp [h]
  · rfl

@[simp] theorem edgeAt_push_empty : edgeAt (bs.push {}) = edgeAt bs := by
  funext e
  simp [edgeAt]

/-! An update of one field is seen only by the accessor of that field. -/

theorem termAt_modify {f : Block → Block} (hf : ∀ b, (f b).term = b.term) :
    termAt (bs.modify i f) = termAt bs := by
  funext j
  simp only [termAt, Array.getElem?_modify]
  split <;> cases bs[j]? <;> simp [hf]

theorem edgeAt_modify {f : Block → Block} (hf : ∀ b, (f b).term = b.term) :
    edgeAt (bs.modify i f) = edgeAt bs := by
  funext e
  simp only [edgeAt, termAt_modify hf]

theorem paramCount_modify {f : Block → Block} (hf : ∀ b, (f b).params = b.params) :
    paramCount (bs.modify i f) = paramCount bs := by
  funext j
  simp only [paramCount, Array.getElem?_modify]
  split <;> cases bs[j]? <;> simp [hf]

theorem paramCount_modify_ne {f : Block → Block} (hij : i ≠ j) :
    paramCount (bs.modify i f) j = paramCount bs j := by
  simp [paramCount, Array.getElem?_modify, hij]

theorem predsAt_modify {f : BlockState → BlockState} (hf : ∀ st, (f st).preds = st.preds) :
    predsAt (sts.modify i f) = predsAt sts := by
  funext j
  simp only [predsAt, Array.getElem?_modify]
  split <;> cases sts[j]? <;> simp [hf]

theorem sealedAt_modify {f : BlockState → BlockState} (hf : ∀ st, (f st).sealed = st.sealed) :
    sealedAt (sts.modify i f) = sealedAt sts := by
  funext j
  simp only [sealedAt, Array.getElem?_modify]
  split <;> cases sts[j]? <;> simp [hf]

/-! The updates lowering makes to one block. -/

theorem termAt_setTerm (hi : i < bs.size) (t : Terminator) :
    termAt (bs.modify i fun b => { b with term := some t }) j =
      if i = j then some t else termAt bs j := by
  simp only [termAt, Array.getElem?_modify]
  split
  · rename_i h
    subst h
    simp [Array.getElem?_eq_getElem hi]
  · rfl

theorem edgeAt_setTerm (hi : i < bs.size) (t : Terminator) (e : PredEdge) :
    edgeAt (bs.modify i fun b => { b with term := some t }) e =
      if e.src = i then t.successors[e.edge]? else edgeAt bs e := by
  simp only [edgeAt, termAt_setTerm hi]
  by_cases h : i = e.src
  · simp [h]
  · simp [h, Ne.symm h]

theorem termAt_mapTerm (g : Terminator → Terminator) :
    termAt (bs.modify i fun b => { b with term := b.term.map g }) j =
      if i = j then (termAt bs j).map g else termAt bs j := by
  simp only [termAt, Array.getElem?_modify]
  split <;> cases bs[j]? <;> simp

theorem edgeAt_addArg (p : PredEdge) (v : Nat) (e : PredEdge) :
    edgeAt (bs.modify p.src fun b => { b with term := b.term.map (·.addArg p.edge v) }) e =
      if e = p then (edgeAt bs e).map (·.withArg v) else edgeAt bs e := by
  simp only [edgeAt, termAt_mapTerm]
  by_cases h : p.src = e.src
  · simp only [h, if_true]
    cases termAt bs e.src with
    | none => simp
    | some t =>
      simp only [Option.map_some, Option.bind_some, Terminator.getElem?_successors_addArg]
      by_cases he : e = p
      · subst he
        simp
      · have hedge : p.edge ≠ e.edge := fun hedge => he (by cases e; cases p; simp_all)
        simp [he, hedge]
  · have hne : e ≠ p := fun he => h (he ▸ rfl)
    simp [h, hne]

theorem paramCount_pushParam (hi : i < bs.size) (v : Nat) :
    paramCount (bs.modify i fun b => { b with params := b.params.push v }) j =
      paramCount bs j + if i = j then 1 else 0 := by
  simp only [paramCount, Array.getElem?_modify]
  split
  · rename_i h
    subst h
    simp [Array.getElem?_eq_getElem hi]
  · simp

theorem predsAt_pushPred (hi : i < sts.size) (e : PredEdge) :
    predsAt (sts.modify i fun st => { st with preds := st.preds.push e }) j =
      predsAt sts j ++ if i = j then [e] else [] := by
  simp only [predsAt, Array.getElem?_modify]
  split
  · rename_i h
    subst h
    simp [Array.getElem?_eq_getElem hi]
  · simp

theorem sealedAt_seal (hi : i < sts.size) :
    sealedAt (sts.modify i fun st => { st with sealed := true, incomplete := #[] }) j =
      (sealedAt sts j || i = j) := by
  simp only [sealedAt, Array.getElem?_modify]
  split
  · rename_i h
    subst h
    simp [Array.getElem?_eq_getElem hi]
  · rename_i h
    simp [h]

end Accessors

/-! ## The primitive steps -/

/-! ## The operand stack as a slice

What an append leaves past the top was spare before, but for the zeros of a new backing array,
made only when something is appended. -/

section Slice

variable {xs : Array Nat}

/-- A spare entry after an append was spare before, or is a zero of a new backing array, made
because `xs` did not fit. -/
theorem mem_appendSpare {len : Nat} {spare : Array Nat} {v : Nat} (hv : v ∈ appendSpare len spare xs) :
    v ∈ spare ∨ (v = 0 ∧ spare.size < xs.size) := by
  unfold appendSpare at hv
  split at hv
  · exact .inl (mem_of_mem_extract hv)
  · rename_i hbig
    exact .inr ⟨(Array.mem_replicate.mp hv).2, by omega⟩

/-- Appending values below `N` keeps the spare entries below `N`. -/
theorem appendSpare_below {len N : Nat} {spare : Array Nat} (hsp : ∀ v ∈ spare, v < N)
    (hx : ∀ v ∈ xs, v < N) : ∀ v ∈ appendSpare len spare xs, v < N := by
  intro v hv
  rcases mem_appendSpare hv with hv | ⟨rfl, hbig⟩
  · exact hsp v hv
  -- the new backing array is made for at least one appended value, which is below `N`
  · have hx₀ : 0 < xs.size := by omega
    exact Nat.lt_of_le_of_lt (Nat.zero_le _) (hx _ (Array.getElem_mem hx₀))

/-- Pushing one value below `N` keeps the spare entries below `N`. -/
theorem appendSpare_push_below {len N v : Nat} {spare : Array Nat} (hsp : ∀ w ∈ spare, w < N)
    (hv : v < N) : ∀ w ∈ appendSpare len spare #[v], w < N :=
  appendSpare_below hsp fun w hw => by
    rw [Array.mem_singleton] at hw
    exact hw ▸ hv

/-- The entries popped off a stack below `N`, ahead of spare entries below `N`, are below `N`. -/
theorem popped_below {st sp : Array Nat} {k N : Nat} (hs : ∀ v ∈ st, v < N) (hsp : ∀ v ∈ sp, v < N) :
    ∀ v ∈ st.extract k st.size ++ sp, v < N := by
  intro v hv
  rcases Array.mem_append.mp hv with hv | hv
  · exact hs v (mem_of_mem_extract hv)
  · exact hsp v hv

/-- The backing array of a stack and spare entries below `N` is below `N`. -/
theorem backing_below {s : Lowering} {N : Nat} (hs : ∀ v ∈ s.stack, v < N)
    (hsp : ∀ v ∈ s.spare, v < N) : ∀ v ∈ s.backing, v < N := fun v hv =>
  (Array.mem_append.mp hv).elim (hs v) (hsp v)

/-- Reslicing a backing array below `N` to `base` and appending values below `N` leaves a stack
below `N`. -/
theorem resliced_below {b xs : Array Nat} {base N : Nat} (hb : ∀ v ∈ b, v < N)
    (hx : ∀ v ∈ xs, v < N) : ∀ v ∈ b.extract 0 base ++ xs, v < N := by
  intro v hv
  rcases Array.mem_append.mp hv with hv | hv
  · exact hb v (mem_of_mem_extract hv)
  · exact hx v hv

/-- Reslicing a backing array below `N` to `base` and appending values below `N` leaves spare
entries below `N`. -/
theorem resliced_spare_below {b xs : Array Nat} {base N : Nat} (hb : ∀ v ∈ b, v < N)
    (hx : ∀ v ∈ xs, v < N) :
    ∀ v ∈ appendSpare (b.extract 0 base).size (b.extract base b.size) xs, v < N :=
  appendSpare_below (fun v hv => hb v (mem_of_mem_extract hv)) hx

end Slice

namespace Lower

variable (s : Lowering)

/-- A loop whose every step goes on, keeping `I` with one more element seen, ends, when it
succeeds, in a state where `I` holds of all its elements. -/
theorem forIn_run_invariant {α β : Type} (I : List α → β → Lowering → Prop)
    {f : α → β → LowerM (ForInStep β)} {xs : List α}
    (hf : ∀ pre a rest b s r s', pre ++ a :: rest = xs → I pre b s → (f a b).run s = .ok (r, s') →
      ∃ b', r = .yield b' ∧ I (pre ++ [a]) b' s')
    {b : β} {s : Lowering} {r : β} {s' : Lowering} (hs : I [] b s)
    (h : (forIn xs b f).run s = .ok (r, s')) : I xs r s' := by
  -- the loop over a suffix, from the state after the prefix before it
  suffices hsuffix : ∀ (ys pre : List α) (b : β) (s : Lowering), pre ++ ys = xs → I pre b s →
      (forIn ys b f).run s = .ok (r, s') → I xs r s' from hsuffix xs [] b s rfl hs h
  intro ys
  induction ys with
  | nil =>
    intro pre b s hpre hs h
    cases h
    simpa [← hpre] using hs
  | cons a ys ih =>
    intro pre b s hpre hs h
    rw [List.forIn_cons, StateT.run_bind] at h
    obtain ⟨⟨r₁, s₁⟩, h₁, h⟩ := bind_eq_ok h
    obtain ⟨b', rfl, hb'⟩ := hf pre a ys b s r₁ s₁ hpre hs h₁
    exact ih (pre ++ [a]) b' s₁ (by simpa using hpre) hb' h

theorem get_run : (get : LowerM Lowering).run s = .ok (s, s) := rfl

theorem set_run (s' : Lowering) : (set s' : LowerM PUnit).run s = .ok (PUnit.unit, s') := rfl

theorem modify_run (f : Lowering → Lowering) : (modify f : LowerM PUnit).run s = .ok (PUnit.unit, f s) :=
  rfl

theorem pure_run {α : Type} (a : α) : (pure a : LowerM α).run s = .ok (a, s) := rfl

theorem newBlock_run :
    newBlock.run s = .ok (s.blocks.size, { s with blocks := s.blocks.push {}, states := s.states.push {} }) :=
  rfl

theorem newValue_run (d : ValueDef) :
    (newValue d).run s = .ok (s.values.size, { s with values := s.values.push d }) := rfl

theorem modifyBlock_run (blk : Nat) (f : Block → Block) :
    (modifyBlock blk f).run s = .ok ((), { s with blocks := s.blocks.modify blk f }) := rfl

theorem modifyState_run (blk : Nat) (f : BlockState → BlockState) :
    (modifyState blk f).run s = .ok ((), { s with states := s.states.modify blk f }) := rfl

theorem blockAt_run (blk : Nat) : (blockAt blk).run s = .ok (s.blocks[blk]?.getD {}, s) := rfl

theorem stateAt_run (blk : Nat) : (stateAt blk).run s = .ok (s.states[blk]?.getD {}, s) := rfl

theorem addParam_run (blk : Nat) (t : ValType) :
    (addParam blk t).run s =
      .ok (s.values.size,
        { s with
          values := s.values.push (.param blk (s.blocks[blk]?.getD {}).params.size t)
          blocks := s.blocks.modify blk fun b => { b with params := b.params.push s.values.size } }) :=
  rfl

theorem defineLocal_run (blk : Nat) (idx : UInt32) (v : Nat) :
    (defineLocal blk idx v).run s =
      .ok ((), { s with states := s.states.modify blk fun st => { st with defs := st.defs.insert idx v } }) :=
  rfl

theorem push_run (v : Nat) :
    (push v).run s =
      .ok ((), { s with stack := s.stack.push v, spare := appendSpare s.stack.size s.spare #[v] }) :=
  rfl

theorem frameBase_run : frameBase.run s = .ok (((s.frames.back?.map (·.base)).getD 0), s) := rfl

theorem dup_run (n : Nat) :
    (dup n).run s = .ok ((s.stack.extract (s.stack.size - n) s.stack.size).toList, s) := rfl

theorem lookupFuel_run :
    lookupFuel.run s = .ok (2 * (s.blocks.size + 2) * (s.blocks.size + 2), s) := rfl

theorem switchTo_run (base blk n : Nat) :
    (switchTo base blk n).run s =
      .ok ((), { s with
        unreachable := (s.states[blk]?.getD {}).preds.isEmpty
        stack := s.backing.extract 0 base ++ (s.blocks[blk]?.getD {}).params.extract 0 n
        spare := appendSpare (s.backing.extract 0 base).size (s.backing.extract base s.backing.size)
          ((s.blocks[blk]?.getD {}).params.extract 0 n)
        cur := blk }) :=
  rfl

theorem pop_run {n : Nat} {l : List Nat} {s' : Lowering} (h : (pop n).run s = .ok (l, s')) :
    n + (s.frames.back?.map (·.base)).getD 0 ≤ s.stack.size ∧
      l = (s.stack.extract (s.stack.size - n) s.stack.size).toList ∧
      s' = { s with
        stack := s.stack.extract 0 (s.stack.size - n)
        spare := s.stack.extract (s.stack.size - n) s.stack.size ++ s.spare } := by
  simp only [pop, StateT.run_bind, frameBase_run, get_run, ok_bind] at h
  split at h
  · cases h
  · rename_i hle
    simp only [StateT.run_bind, dup_run, ok_bind, modify_run, pure_run] at h
    cases h
    exact ⟨by omega, rfl, rfl⟩

theorem peek_run {n : Nat} {l : List Nat} {s' : Lowering} (h : (peek n).run s = .ok (l, s')) :
    n ≤ s.stack.size ∧ l = (s.stack.extract (s.stack.size - n) s.stack.size).toList ∧ s' = s := by
  simp only [peek, StateT.run_bind, get_run, ok_bind] at h
  split at h
  · cases h
  · rename_i hle
    rw [dup_run] at h
    cases h
    exact ⟨by omega, rfl, rfl⟩

/-- The edges of a terminator of block `cur`, recorded in the blocks they go to. -/
def linkEdges (cur : Nat) : List (Target × Nat) → Array BlockState → Array BlockState
  | [], sts => sts
  | (succ, i) :: rest, sts =>
    linkEdges cur rest (sts.modify succ.block fun st => { st with preds := st.preds.push ⟨cur, i⟩ })

theorem forIn_linkEdges (cur : Nat) : ∀ (l : List (Target × Nat)) (s : Lowering),
    (forIn l PUnit.unit fun x _ => do
      modifyState x.1.block fun st => { st with preds := st.preds.push ⟨cur, x.2⟩ }
      pure (ForInStep.yield PUnit.unit) : LowerM PUnit).run s =
      .ok (PUnit.unit, { s with states := linkEdges cur l s.states })
  | [], _ => rfl
  | (_, _) :: rest, _ => by
    rw [List.forIn_cons]
    exact forIn_linkEdges cur rest _

theorem terminate_run (t : Terminator) :
    (terminate t).run s =
      .ok ((), { s with
        blocks := s.blocks.modify s.cur fun b => { b with term := some t }
        states := linkEdges s.cur t.successors.zipIdx s.states
        unreachable := true }) := by
  simp only [terminate, StateT.run_bind, get_run, modifyBlock_run, ok_bind, forIn_linkEdges,
    modify_run]

section LinkEdges

variable (cur : Nat)

theorem size_linkEdges : ∀ (l : List (Target × Nat)) (sts : Array BlockState),
    (linkEdges cur l sts).size = sts.size
  | [], _ => rfl
  | (_, _) :: rest, sts => by
    rw [linkEdges, size_linkEdges rest, Array.size_modify]

theorem sealedAt_linkEdges : ∀ (l : List (Target × Nat)) (sts : Array BlockState),
    sealedAt (linkEdges cur l sts) = sealedAt sts
  | [], _ => rfl
  | (_, _) :: rest, sts => by
    rw [linkEdges, sealedAt_linkEdges rest]
    refine sealedAt_modify ?_
    intro
    rfl

/-- Recording the edges adds, to the edges into each block, those of them that go there. -/
theorem predsAt_linkEdges : ∀ (l : List (Target × Nat)) (sts : Array BlockState),
    (∀ p ∈ l, p.1.block < sts.size) → ∀ j,
      predsAt (linkEdges cur l sts) j =
        predsAt sts j ++ (l.filter fun p => p.1.block == j).map fun p => ⟨cur, p.2⟩
  | [], _, _, _ => by simp [linkEdges]
  | (succ, i) :: rest, sts, hl, j => by
    have hsucc : succ.block < sts.size := hl _ List.mem_cons_self
    rw [linkEdges, predsAt_linkEdges rest _ (fun p hp => by
      simpa using hl p (List.mem_cons_of_mem _ hp)), predsAt_pushPred hsucc]
    by_cases hj : succ.block = j <;> simp [hj]

theorem forall_mem_linkEdges {P : BlockState → Prop}
    (hP : ∀ st e, P st → P { st with preds := st.preds.push e }) :
    ∀ (l : List (Target × Nat)) (sts : Array BlockState), (∀ st ∈ sts, P st) →
      ∀ st ∈ linkEdges cur l sts, P st
  | [], _, h => h
  | (_, _) :: rest, _, h =>
    forall_mem_linkEdges hP rest _ (forall_mem_modify h (fun st hst => hP st _ hst) _)

end LinkEdges

theorem mapM_newPick (v : Nat) : ∀ (l : List (ValType × Nat)) (s : Lowering),
    (l.mapM fun (t, i) => newValue (.pick v i t)).run s =
      .ok (List.range' s.values.size l.length,
        { s with values := s.values ++ (l.map fun p => ValueDef.pick v p.2 p.1).toArray })
  | [], s => by
    simp only [List.mapM_nil, List.length_nil, List.range'_zero, List.map_nil]
    congr
  | (t, i) :: rest, s => by
    simp only [List.mapM_cons, StateT.run_bind, newValue_run, ok_bind, mapM_newPick v rest,
      pure_run, Array.size_push, List.length_cons, List.range'_succ, List.map_cons]
    congr 3
    rw [← Array.toList_inj]
    simp

/-- Emitting an operator adds its value, then one pick per result when it has several, and
runs the value in the current block. -/
theorem emit_run {o : Operator} {args : List Nat} {results : List ValType} {vs : List Nat}
    {s' : Lowering} (h : (emit o args results).run s = .ok (vs, s')) :
    ∃ picks : Array ValueDef, (∀ d ∈ picks, d.operands = []) ∧
      s' = { s with
        values := s.values.push (.operator o args results) ++ picks
        blocks := s.blocks.modify s.cur fun b => { b with insts := b.insts.push s.values.size } } ∧
      ∀ x ∈ vs, x < s'.values.size := by
  simp only [emit, StateT.run_bind, newValue_run, get_run, modifyBlock_run, ok_bind] at h
  match results, h with
  | [], h =>
    cases h
    exact ⟨#[], by simp, by simp, by simp⟩
  | [_], h =>
    cases h
    exact ⟨#[], by simp, by simp, by simp⟩
  | t :: t' :: rest, h =>
    rw [mapM_newPick] at h
    cases h
    refine ⟨_, ?_, rfl, ?_⟩
    · intro d hd
      simp only [List.mem_toArray, List.mem_map] at hd
      obtain ⟨p, -, rfl⟩ := hd
      rfl
    · intro x hx
      simp only [List.mem_range'_1] at hx
      simp only [Array.size_append, Array.size_push, List.size_toArray, List.length_map,
        List.length_zipIdx, List.length_cons] at hx ⊢
      omega

end Lower

end WasmImage.Ssa
