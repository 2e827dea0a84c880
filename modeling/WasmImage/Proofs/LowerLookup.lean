import Mathlib
import WasmImage.Proofs.LowerLocals

/-!
# Looking up a local settles within its fuel

Reading a local walks back along the edges into a block: a sealed block with one edge asks the
block that edge comes from, a sealed block with any other number of edges first defines the
local as a new parameter and then asks every block an edge comes from, and a block not sealed
answers at once with a parameter completed when it is sealed. The walk runs on fuel, and the
lowering gives it `2 (n + 2)²` for `n` blocks (`lookupFuel`).

That fuel is enough whenever the first edge into each block comes from a block of lower rank
(`RankedBy`). A chain of single edges then strictly lowers the number of blocks ranked below the
one asked (`rankBelow`), and a block with several edges defines the local before its
predecessors are asked, so between two such blocks the number of blocks with no definition
(`undefinedCount`) drops. Reading with `(n + 3) · undefinedCount + rankBelow + 1` fuel settles
(`readSettles`), and so does passing a local along the edges into a block with
`(n + 3) · (undefinedCount + 1)` (`passSettles`); `lookupFuel` is more than both. Main
statements: `readLocal_settles` and `sealBlock_settles`.
-/

namespace WasmImage.Ssa

open Wasm Lower

/-- The value block `j` holds for local `idx`, if it defines it. -/
def defAt (sts : Array BlockState) (j : Nat) (idx : UInt32) : Option Nat :=
  (sts[j]?.getD {}).defs[idx]?

/-- The first edge into every block comes from a block that exists and ranks lower. -/
def RankedBy (r : Nat → Nat) (sts : Array BlockState) : Prop :=
  ∀ j e, (predsAt sts j).head? = some e → e.src < sts.size ∧ r e.src < r j

/-- The number of blocks that do not define local `idx`. -/
def undefinedCount (sts : Array BlockState) (idx : UInt32) : Nat :=
  ((Finset.range sts.size).filter fun j => defAt sts j idx = none).card

/-- The number of blocks among the first `n` that rank lower than block `j`. -/
def rankBelow (r : Nat → Nat) (n j : Nat) : Nat :=
  ((Finset.range n).filter fun c => r c < r j).card

section Measures

variable {sts sts' : Array BlockState} {idx : UInt32} {r : Nat → Nat} {n : Nat}

theorem undefinedCount_le_size (sts : Array BlockState) (idx : UInt32) : undefinedCount sts idx ≤ sts.size :=
  (Finset.card_filter_le _ _).trans (Finset.card_range _).le

theorem rankBelow_le_size (j : Nat) : rankBelow r n j ≤ n :=
  (Finset.card_filter_le _ _).trans (Finset.card_range _).le

/-- A block of lower rank has fewer blocks below it. -/
theorem rankBelow_lt {p j : Nat} (hp : p < n) (hr : r p < r j) : rankBelow r n p < rankBelow r n j := by
  refine Finset.card_lt_card ((Finset.ssubset_iff_of_subset fun c hc => ?_).mpr ⟨p, ?_, ?_⟩)
  · simp only [Finset.mem_filter] at hc ⊢
    exact ⟨hc.1, hc.2.trans hr⟩
  · simp [hp, hr]
  · simp

/-- Blocks only gain definitions: no more of them lack one. -/
theorem undefinedCount_le (hsize : sts'.size = sts.size)
    (hdefs : ∀ j, defAt sts j idx ≠ none → defAt sts' j idx ≠ none) :
    undefinedCount sts' idx ≤ undefinedCount sts idx := by
  unfold undefinedCount
  rw [hsize]
  refine Finset.card_le_card fun j hj => ?_
  simp only [Finset.mem_filter] at hj ⊢
  exact ⟨hj.1, by_contra fun h => hdefs j h hj.2⟩

/-- ... and one that lacked it now has it: fewer lack it. -/
theorem undefinedCount_lt (hsize : sts'.size = sts.size)
    (hdefs : ∀ j, defAt sts j idx ≠ none → defAt sts' j idx ≠ none) {i : Nat} (hi : i < sts.size)
    (hnone : defAt sts i idx = none) (hdef : defAt sts' i idx ≠ none) :
    undefinedCount sts' idx < undefinedCount sts idx := by
  unfold undefinedCount
  rw [hsize]
  refine Finset.card_lt_card ((Finset.ssubset_iff_of_subset fun j hj => ?_).mpr ⟨i, ?_, ?_⟩)
  · simp only [Finset.mem_filter] at hj ⊢
    exact ⟨hj.1, by_contra fun h => hdefs j h hj.2⟩
  · simp [hi, hnone]
  · simp [hdef]

end Measures

/-- Updating one block's state by `f`, which keeps every definition, keeps every definition. -/
theorem defAt_modify {sts : Array BlockState} {i j : Nat} {idx : UInt32} {f : BlockState → BlockState}
    (hf : ∀ st : BlockState, st.defs[idx]? ≠ none → (f st).defs[idx]? ≠ none)
    (h : defAt sts j idx ≠ none) : defAt (sts.modify i f) j idx ≠ none := by
  unfold defAt at h ⊢
  rw [Array.getElem?_modify]
  split
  · cases hj : sts[j]? with
    | none => simp [hj] at h
    | some st => simpa [hj] using hf st (by simpa [hj] using h)
  · exact h

/-- Defining local `idx` in block `i` leaves it defined there. -/
theorem defAt_define {sts : Array BlockState} {i : Nat} (hi : i < sts.size) (idx : UInt32) (v : Nat) :
    defAt (sts.modify i fun st => { st with defs := st.defs.insert idx v }) i idx = some v := by
  simp [defAt, Array.getElem?_modify, Array.getElem?_eq_getElem hi]

theorem defs_insert_ne_none {idx : UInt32} (k : UInt32) (v : Nat) (st : BlockState)
    (h : st.defs[idx]? ≠ none) : (st.defs.insert k v)[idx]? ≠ none := by
  rw [Std.HashMap.getElem?_insert]
  split
  · simp
  · exact h

namespace Lowering

/-- `s'` comes from `s` by resolving locals: only the blocks, values and block states change, the
edges and the numbers of blocks stay, and a local a block defines stays defined. -/
structure Resolves (s s' : Lowering) : Prop where
  rest : ∃ bs vs sts, s' = { s with blocks := bs, values := vs, states := sts }
  preds : predsAt s'.states = predsAt s.states
  states : s'.states.size = s.states.size
  blocks : s'.blocks.size = s.blocks.size
  defs : ∀ j idx, defAt s.states j idx ≠ none → defAt s'.states j idx ≠ none

namespace Resolves

variable {s₁ s₂ s₃ : Lowering}

theorem refl (s : Lowering) : Resolves s s := ⟨⟨_, _, _, rfl⟩, rfl, rfl, rfl, fun _ _ h => h⟩

theorem trans (h₁ : Resolves s₁ s₂) (h₂ : Resolves s₂ s₃) : Resolves s₁ s₃ := by
  refine ⟨?_, h₂.preds.trans h₁.preds, h₂.states.trans h₁.states, h₂.blocks.trans h₁.blocks,
    fun j idx h => h₂.defs j idx (h₁.defs j idx h)⟩
  obtain ⟨_, _, _, rfl⟩ := h₁.rest
  obtain ⟨bs, vs, sts, rfl⟩ := h₂.rest
  exact ⟨bs, vs, sts, rfl⟩

/-- Steps that change only the values and what the blocks hold. -/
theorem of_states (hrest : ∃ bs vs, s₂ = { s₁ with blocks := bs, values := vs })
    (hblocks : s₂.blocks.size = s₁.blocks.size) : Resolves s₁ s₂ := by
  obtain ⟨bs, vs, rfl⟩ := hrest
  exact ⟨⟨bs, vs, _, rfl⟩, rfl, rfl, hblocks, fun _ _ h => h⟩

/-- Updating one block's state without touching its edges or taking back a definition. -/
theorem of_modify {i : Nat} (f : BlockState → BlockState) (hpreds : ∀ st, (f st).preds = st.preds)
    (hdefs : ∀ (st : BlockState) (idx : UInt32), st.defs[idx]? ≠ none → (f st).defs[idx]? ≠ none)
    (hrest : ∃ bs vs, s₂ = { s₁ with blocks := bs, values := vs, states := s₁.states.modify i f })
    (hblocks : s₂.blocks.size = s₁.blocks.size) : Resolves s₁ s₂ := by
  obtain ⟨bs, vs, rfl⟩ := hrest
  exact ⟨⟨bs, vs, _, rfl⟩, predsAt_modify hpreds, Array.size_modify .., hblocks,
    fun _ idx h => defAt_modify (hdefs · idx) h⟩

/-- Defining a local in one block. -/
theorem define {i : Nat} {idx : UInt32} {v : Nat}
    (hrest : ∃ bs vs, s₂ = { s₁ with
      blocks := bs, values := vs
      states := s₁.states.modify i fun st => { st with defs := st.defs.insert idx v } })
    (hblocks : s₂.blocks.size = s₁.blocks.size) : Resolves s₁ s₂ :=
  of_modify (fun st => { st with defs := st.defs.insert idx v }) (fun _ => rfl)
    (fun st _ h => defs_insert_ne_none idx v st h) hrest hblocks

theorem ranked {r : Nat → Nat} (h : Resolves s₁ s₂) (hr : RankedBy r s₁.states) : RankedBy r s₂.states := by
  intro j e he
  rw [h.preds] at he
  rw [h.states]
  exact hr j e he

theorem undefinedCount_le (h : Resolves s₁ s₂) (idx : UInt32) :
    undefinedCount s₂.states idx ≤ undefinedCount s₁.states idx :=
  WasmImage.Ssa.undefinedCount_le h.states (h.defs · idx)

end Resolves

/-! ## Loops that go on -/

/-- A loop whose every step, from a state where `I` holds, goes on to a state where `I` holds,
ends in such a state. -/
theorem forIn_yields {α β : Type} (I : Lowering → Prop) {f : α → β → LowerM (ForInStep β)} {xs : List α}
    {b : β} {s : Lowering} {o : Except LowerFault (β × Lowering)} (h : (forIn xs b f).run s = o)
    (hs : I s) (hf : ∀ a ∈ xs, ∀ b t o, I t → (f a b).run t = o → ∃ b' t', o = .ok (.yield b', t') ∧ I t') :
    ∃ b' s', o = .ok (b', s') ∧ I s' := by
  induction xs generalizing b s o with
  | nil =>
    subst h
    exact ⟨b, s, rfl, hs⟩
  | cons a xs ih =>
    rw [List.forIn_cons, StateT.run_bind] at h
    obtain ⟨o₁, h₁, h⟩ := bind_outcome h
    obtain ⟨b₁, s₁, rfl, hs₁⟩ := hf a List.mem_cons_self b s o₁ hs h₁
    exact ih h hs₁ fun a' ha' => hf a' (List.mem_cons_of_mem a ha')

/-! ## The fuel a lookup needs -/

section Settling

variable (r : Nat → Nat)

/-- Reading a local with `fuel` settles, resolving locals, in every lowering ranked by `r`
where the fuel exceeds `(n + 3) · undefinedCount + rankBelow` for `n` blocks. -/
def ReadSettles (fuel : Nat) : Prop :=
  ∀ (blk : Nat) (idx : UInt32) (s : Lowering) (o : Except LowerFault (Nat × Lowering)),
    (readLocal fuel blk idx).run s = o → RankedBy r s.states →
    (s.states.size + 3) * undefinedCount s.states idx + rankBelow r s.states.size blk < fuel →
    ∃ v s', o = .ok (v, s') ∧ s.Resolves s'

/-- Passing a local along the edges into a block with `fuel` settles, resolving locals, in
every lowering ranked by `r` where the fuel is at least `(n + 3) · (undefinedCount + 1)`. -/
def PassSettles (fuel : Nat) : Prop :=
  ∀ (blk : Nat) (idx : UInt32) (s : Lowering) (o : Except LowerFault (Unit × Lowering)),
    (addPredArgs fuel blk idx).run s = o → RankedBy r s.states →
    (s.states.size + 3) * (undefinedCount s.states idx + 1) ≤ fuel →
    ∃ s', o = .ok ((), s') ∧ s.Resolves s'

variable {r}

theorem readSettles_zero : ReadSettles r 0 := fun _ _ _ _ _ _ h => absurd h (Nat.not_lt_zero _)

theorem passSettles_zero : PassSettles r 0 := by
  intro _ idx s _ _ _ h
  have : 0 < (s.states.size + 3) * (undefinedCount s.states idx + 1) := Nat.mul_pos (by omega) (by omega)
  omega

/-- A sealed block is a block that exists. -/
theorem lt_of_sealed {sts : Array BlockState} {blk : Nat} (h : (sts[blk]?.getD {}).sealed = true) :
    blk < sts.size := by
  by_contra hge
  rw [Array.getElem?_eq_none (Nat.le_of_not_lt hge)] at h
  cases h

theorem readSettles_succ {fuel : Nat} (hread : ReadSettles r fuel) (hpass : PassSettles r fuel) :
    ReadSettles r (fuel + 1) := by
  intro blk idx s o ho hr hfuel
  have hbelow := rankBelow_le_size (r := r) (n := s.states.size) blk
  rw [readLocal] at ho
  simp only [StateT.run_bind, stateAt_run, ok_bind] at ho
  split at ho
  · -- the block defines the local
    subst ho
    exact ⟨_, s, rfl, Resolves.refl s⟩
  rename_i hnone
  simp only [StateT.run_bind, get_run, ok_bind] at ho
  split at ho
  · -- not sealed: a parameter, completed when the block is sealed
    simp only [StateT.run_bind, newValue_run, ok_bind, modifyState_run, pure_run] at ho
    subst ho
    refine ⟨_, _, rfl, Resolves.of_modify
      (fun st => { st with defs := st.defs.insert idx s.values.size, incomplete := st.incomplete.push (s.values.size, idx) })
      (fun _ => rfl) (fun st _ h => defs_insert_ne_none idx _ st h) ⟨_, _, rfl⟩ rfl⟩
  rename_i hsealed
  have hblk : blk < s.states.size := lt_of_sealed (by simpa using hsealed)
  split at ho
  · -- one edge: the value at its source, which ranks lower
    rename_i hone
    have hhead : (predsAt s.states blk).head? = some (getElem (s.states[blk]?.getD {}).preds 0
        (hone ▸ Nat.one_pos)) := by
      simp [predsAt_eq_getD, List.head?_eq_getElem?]
    have hnext : ∀ e o', (predsAt s.states blk).head? = some e → (readLocal fuel e.src idx).run s = o' →
        ∃ v s₁, o' = .ok (v, s₁) ∧ s.Resolves s₁ := by
      intro e o' he h
      obtain ⟨hsrc, hrank⟩ := hr blk e he
      have hlt := rankBelow_lt (n := s.states.size) hsrc hrank
      exact hread _ idx s o' h hr (by omega)
    rw [StateT.run_bind] at ho
    obtain ⟨o₁, h₁, ho⟩ := bind_outcome ho
    obtain ⟨v, s₁, rfl, hres₁⟩ := hnext _ _ hhead h₁
    simp only [ok_bind, StateT.run_bind, defineLocal_run, pure_run] at ho
    subst ho
    exact ⟨v, _, rfl, hres₁.trans (Resolves.define ⟨_, _, rfl⟩ rfl)⟩
  · -- any other number of edges: a parameter, defined before the edges are asked
    simp only [StateT.run_bind, addParam_run, ok_bind, defineLocal_run] at ho
    obtain ⟨o₃, h₃, ho⟩ := bind_outcome ho
    set s₁ : Lowering := { s with
      values := s.values.push (.param blk (s.blocks[blk]?.getD {}).params.size
        ((s.localTypes[idx.toNat]?).getD ⟨0⟩))
      blocks := s.blocks.modify blk fun b => { b with params := b.params.push s.values.size } }
    set s₂ : Lowering := { s₁ with
      states := s₁.states.modify blk fun st => { st with defs := st.defs.insert idx s.values.size } }
    have hres₁ : s.Resolves s₁ := Resolves.of_states ⟨_, _, rfl⟩ (Array.size_modify ..)
    have hres₂ : s.Resolves s₂ := hres₁.trans (Resolves.define ⟨_, _, rfl⟩ rfl)
    -- the block now defines the local, so fewer blocks lack it
    have hfewer : undefinedCount s₂.states idx + 1 ≤ undefinedCount s.states idx :=
      undefinedCount_lt hres₂.states (hres₂.defs · idx) hblk (by simpa [defAt] using hnone)
        (by simp only [s₂, s₁]; rw [defAt_define hblk]; simp)
    have hmul : (s.states.size + 3) * (undefinedCount s₂.states idx + 1) ≤
        (s.states.size + 3) * undefinedCount s.states idx := Nat.mul_le_mul_left _ hfewer
    obtain ⟨s₃, rfl, hres₃⟩ := hpass blk idx s₂ o₃ h₃ (hres₂.ranked hr) (by rw [hres₂.states]; omega)
    subst ho
    exact ⟨_, s₃, rfl, hres₂.trans hres₃⟩

theorem passSettles_succ {fuel : Nat} (hread : ReadSettles r fuel) : PassSettles r (fuel + 1) := by
  intro blk idx s o ho hr hfuel
  have hmul : (s.states.size + 3) * (undefinedCount s.states idx + 1) =
      (s.states.size + 3) * undefinedCount s.states idx + s.states.size + 3 := by
    rw [Nat.mul_succ, Nat.add_assoc]
  rw [addPredArgs] at ho
  simp only [StateT.run_bind, stateAt_run, ok_bind] at ho
  rw [← Array.forIn_toList] at ho
  obtain ⟨o₁, h₁, ho⟩ := bind_outcome ho
  -- every edge, in turn, asks its source; nothing a lookup does undoes the ranking or the count
  have hloop := forIn_yields (fun t => s.Resolves t) h₁ (Resolves.refl s) ?_
  · obtain ⟨_, s', rfl, hres⟩ := hloop
    subst ho
    exact ⟨s', rfl, hres⟩
  intro p _ _ t o' hres h'
  have hfewer := hres.undefinedCount_le idx
  have hbelow := rankBelow_le_size (r := r) (n := s.states.size) p.src
  have hmono : (s.states.size + 3) * undefinedCount t.states idx ≤
      (s.states.size + 3) * undefinedCount s.states idx := Nat.mul_le_mul_left _ hfewer
  rw [StateT.run_bind] at h'
  obtain ⟨o₂, h₂, h'⟩ := bind_outcome h'
  obtain ⟨v, t₁, rfl, hres₁⟩ := hread p.src idx t o₂ h₂ (hres.ranked hr) (by rw [hres.states]; omega)
  simp only [ok_bind, StateT.run_bind, modifyBlock_run] at h'
  subst h'
  exact ⟨_, _, rfl, (hres.trans hres₁).trans (Resolves.of_states ⟨_, _, rfl⟩ (Array.size_modify ..))⟩

/-- Reading a local, and passing one along edges, settle with the fuel they need. -/
theorem settles (fuel : Nat) : ReadSettles r fuel ∧ PassSettles r fuel := by
  induction fuel with
  | zero => exact ⟨readSettles_zero, passSettles_zero⟩
  | succ fuel ih => exact ⟨readSettles_succ ih.1 ih.2, passSettles_succ ih.1⟩

/-- `lookupFuel` is more than a lookup needs, with no more block states than blocks. -/
theorem lookupFuel_enough {n m U : Nat} (hnm : n ≤ m) (hU : U ≤ n) :
    (n + 3) * (U + 1) ≤ 2 * (m + 2) * (m + 2) := by
  have h₁ : (n + 3) * (U + 1) ≤ (m + 3) * (m + 1) := Nat.mul_le_mul (by omega) (by omega)
  have h₂ : (m + 3) * (m + 1) ≤ 2 * (m + 2) * (m + 2) := by nlinarith
  omega

end Settling

variable {s : Lowering} {r : Nat → Nat}

/-- In a lowering ranked by `r`, reading any local from any block with the fuel the lowering
gives it settles, resolving locals. -/
theorem readLocal_settles (hr : RankedBy r s.states) (hsizes : s.states.size ≤ s.blocks.size)
    (blk : Nat) (idx : UInt32) :
    ∃ v s', (lookupFuel >>= fun fuel => readLocal fuel blk idx).run s = .ok (v, s') ∧ s.Resolves s' := by
  rw [StateT.run_bind, lookupFuel_run, ok_bind]
  have hbelow := rankBelow_le_size (r := r) (n := s.states.size) blk
  have henough := lookupFuel_enough hsizes (undefinedCount_le_size s.states idx)
  have hmul : (s.states.size + 3) * (undefinedCount s.states idx + 1) =
      (s.states.size + 3) * undefinedCount s.states idx + s.states.size + 3 := by
    rw [Nat.mul_succ, Nat.add_assoc]
  exact (settles _).1 blk idx s _ rfl hr (by omega)

/-- In a lowering ranked by `r`, sealing any block settles: every parameter made for a read in
the block gets its arguments, with the fuel the lowering gives. -/
theorem sealBlock_settles (hr : RankedBy r s.states) (hsizes : s.states.size ≤ s.blocks.size)
    (blk : Nat) : ∃ s', (sealBlock blk).run s = .ok ((), s') ∧ s.Resolves s' := by
  obtain ⟨o, ho⟩ : ∃ o, (sealBlock blk).run s = o := ⟨_, rfl⟩
  rw [ho]
  rw [sealBlock] at ho
  simp only [StateT.run_bind, stateAt_run, ok_bind] at ho
  split at ho
  · subst ho
    exact ⟨s, rfl, Resolves.refl s⟩
  simp only [StateT.run_bind, modifyState_run, ok_bind] at ho
  rw [← Array.forIn_toList] at ho
  obtain ⟨o₁, h₁, ho⟩ := bind_outcome ho
  have hloop := forIn_yields (fun t => s.Resolves t) h₁
    (Resolves.of_modify (fun st => { st with sealed := true, incomplete := #[] }) (fun _ => rfl)
      (fun _ _ h => h) ⟨_, _, rfl⟩ rfl) ?_
  · obtain ⟨_, s', rfl, hres⟩ := hloop
    subst ho
    exact ⟨s', rfl, hres⟩
  -- each parameter made before sealing gets its argument on every edge into the block
  intro p _ _ t o' hres h'
  simp only [StateT.run_bind, blockAt_run, ok_bind, modify_run, modifyBlock_run, lookupFuel_run,
    Array.size_modify] at h'
  obtain ⟨o₂, h₂, h'⟩ := bind_outcome h'
  have henough := lookupFuel_enough (n := t.states.size) (m := t.blocks.size)
    (by rw [hres.states, hres.blocks]; exact hsizes) (undefinedCount_le_size _ p.2)
  obtain ⟨t₂, rfl, hres₂⟩ := (settles _).2 blk p.2 _ o₂ h₂ (hres.ranked hr) henough
  subst h'
  refine ⟨_, t₂, rfl, hres.trans (Resolves.trans ?_ hres₂)⟩
  exact Resolves.of_states ⟨_, _, rfl⟩ (Array.size_modify ..)

end Lowering

end WasmImage.Ssa
