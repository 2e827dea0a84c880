import WasmImage.Proofs.LowerEdges

/-!
# Control frames while lowering

The control frames of a lowering name the blocks that code to come will use: the block each
frame continues in, the header of a loop, and the else block of an `if` before its `else`.
Lowering keeps these blocks *open*: not sealed, so that no read of a local adds a parameter to
them, not ended, and with one parameter per value a branch to them carries.

Every block that is not ended is the current block, a block a frame will still end, or dead: no
edge goes to it, no frame names it, and it is not the entry. When the function's frame is
closed no code is live, so every block is ended or dead. This is `Wf`, the invariant of the
whole lowering.

A run of steps that leaves the frames alone keeps `Wf` when it ends only blocks no frame has to
end, adds edges only into blocks that are ended or that frames name, seals no block a frame
names, and leaves any new block ended, current or without edges (`Wf.keep`).
-/

namespace WasmImage.Ssa

open Wasm Lower

namespace Frame

/-- The blocks a frame names: the block it continues in, and a loop header or else block. -/
def blocks (f : Frame) : List Nat :=
  match f.kind with
  | .function => []
  | .block | .ifElse => [f.following]
  | .loop | .ifNoElse => [f.header, f.following]

/-- The blocks of a frame that code to come ends: the block it continues in, and the else block
of an `if` before its `else`. -/
def pending (f : Frame) : List Nat :=
  match f.kind with
  | .function => []
  | .block | .ifElse | .loop => [f.following]
  | .ifNoElse => [f.header, f.following]

variable {f : Frame} {j : Nat}

theorem mem_blocks : j ∈ f.blocks ↔
    (f.kind ≠ .function ∧ j = f.following) ∨ ((f.kind = .loop ∨ f.kind = .ifNoElse) ∧ j = f.header) := by
  unfold blocks
  cases f.kind <;> simp [or_comm]

theorem mem_pending : j ∈ f.pending ↔
    (f.kind ≠ .function ∧ j = f.following) ∨ (f.kind = .ifNoElse ∧ j = f.header) := by
  unfold pending
  cases f.kind <;> simp [or_comm]

theorem mem_blocks_of_pending (h : j ∈ f.pending) : j ∈ f.blocks := by
  rw [mem_pending] at h
  rw [mem_blocks]
  rcases h with h | ⟨hk, rfl⟩
  · exact .inl h
  · exact .inr ⟨.inr hk, rfl⟩

end Frame

/-- The blocks the frames name. -/
def blocksOf (fs : Array Frame) : List Nat := fs.toList.flatMap Frame.blocks

/-- The blocks of the frames that code to come ends. -/
def pendingOf (fs : Array Frame) : List Nat := fs.toList.flatMap Frame.pending

section FrameBlocks

variable {fs : Array Frame} {j : Nat}

theorem mem_blocksOf : j ∈ blocksOf fs ↔ ∃ f ∈ fs, j ∈ f.blocks := by
  simp [blocksOf]

theorem mem_pendingOf : j ∈ pendingOf fs ↔ ∃ f ∈ fs, j ∈ f.pending := by
  simp [pendingOf]

theorem mem_blocksOf_of_pending (h : j ∈ pendingOf fs) : j ∈ blocksOf fs := by
  obtain ⟨f, hf, hj⟩ := mem_pendingOf.mp h
  exact mem_blocksOf.mpr ⟨f, hf, Frame.mem_blocks_of_pending hj⟩

@[simp] theorem blocksOf_push (f : Frame) : blocksOf (fs.push f) = blocksOf fs ++ f.blocks := by
  simp [blocksOf]

@[simp] theorem pendingOf_push (f : Frame) : pendingOf (fs.push f) = pendingOf fs ++ f.pending := by
  simp [pendingOf]

theorem blocksOf_append (gs : Array Frame) : blocksOf (fs ++ gs) = blocksOf fs ++ blocksOf gs := by
  simp [blocksOf]

theorem pendingOf_append (gs : Array Frame) : pendingOf (fs ++ gs) = pendingOf fs ++ pendingOf gs := by
  simp [pendingOf]

end FrameBlocks

namespace Lowering

/-- Block `j` is open with `n` parameters: it exists, and is neither sealed nor ended. -/
structure Open (s : Lowering) (j n : Nat) : Prop where
  lt : j < s.blocks.size
  unsealed : sealedAt s.states j = false
  unended : termAt s.blocks j = none
  params : paramCount s.blocks j = n

end Lowering

/-- What a control frame promises of its blocks: the function's frame returns the function's
results; any other continues in an open block with one parameter per result; a loop header is
not sealed and has one parameter per loop parameter; the else block of an `if` is not ended,
and the `if` keeps one operand for it per parameter. -/
structure Frame.Ok (s : Lowering) (f : Frame) : Prop where
  function : f.kind = .function → f.results = s.results
  following : f.kind ≠ .function → s.Open f.following f.results.length
  loop : f.kind = .loop →
    f.header < s.blocks.size ∧ sealedAt s.states f.header = false ∧
      paramCount s.blocks f.header = f.params.length
  ifNoElse : f.kind = .ifNoElse →
    f.header < s.blocks.size ∧ termAt s.blocks f.header = none ∧ f.elseArgs.length = f.params.length

namespace Lowering

/-- The invariant of lowering: the body built so far is coherent, the frames keep their
promises, the function's frame is the outermost, no two frames share a block and none names the
entry, and every block not ended is the current block, a block a frame still ends, or dead.
Code skipped after a branch is not live, and neither is code after the function's end. The
block that returns has one parameter per result, and no frame names it. -/
structure Wf (s : Lowering) : Prop where
  coherent : s.Coherent
  entry : 0 < s.blocks.size
  frames : ∀ f ∈ s.frames, f.Ok s
  bottom : ∀ (i : Nat) (h : i < s.frames.size), (s.frames[i].kind = .function ↔ i = 0)
  distinct : (blocksOf s.frames).Nodup
  entryFree : 0 ∉ blocksOf s.frames
  reach : s.unreachable = false →
    s.cur < s.blocks.size ∧ termAt s.blocks s.cur = none ∧ s.cur ∉ pendingOf s.frames
  dangling : ∀ j < s.blocks.size, termAt s.blocks j = none →
    (s.unreachable = false ∧ j = s.cur) ∨ j ∈ pendingOf s.frames ∨
      (j ≠ 0 ∧ predsAt s.states j = [] ∧ j ∉ blocksOf s.frames)
  dead : 0 < s.deadDepth → s.unreachable = true
  ended : s.frames.size = 0 → s.unreachable = true
  retParams : ∀ r, s.retBlock = some r → paramCount s.blocks r = s.results.length
  retFree : ∀ r, s.retBlock = some r → r ∉ blocksOf s.frames

variable {s s' : Lowering} {E N S : List Nat}

/-- `s'` is in the control state of `s`: the same operand stack and backing array, frames,
current block, liveness, depth of skipped code and function results. -/
structure SameControl (s s' : Lowering) : Prop where
  stack : s'.stack = s.stack
  spare : s'.spare = s.spare
  frames : s'.frames = s.frames
  cur : s'.cur = s.cur
  unreachable : s'.unreachable = s.unreachable
  deadDepth : s'.deadDepth = s.deadDepth
  results : s'.results = s.results

theorem SameControl.refl (s : Lowering) : SameControl s s := ⟨rfl, rfl, rfl, rfl, rfl, rfl, rfl⟩

theorem SameControl.trans {s₁ s₂ s₃ : Lowering} (h₁ : SameControl s₁ s₂) (h₂ : SameControl s₂ s₃) :
    SameControl s₁ s₃ :=
  ⟨h₂.stack.trans h₁.stack, h₂.spare.trans h₁.spare, h₂.frames.trans h₁.frames, h₂.cur.trans h₁.cur,
    h₂.unreachable.trans h₁.unreachable, h₂.deadDepth.trans h₁.deadDepth, h₂.results.trans h₁.results⟩

theorem SameControl.of_grows {S : List Nat} (h : Grows S s s') : SameControl s s' := by
  obtain ⟨bs, vs, sts, rfl⟩ := h.rest
  exact ⟨rfl, rfl, rfl, rfl, rfl, rfl, rfl⟩

theorem Open.moves {j n : Nat} (h : s.Open j n) (hm : Moves E N S s s') (hE : j ∉ E) (hS : j ∉ S) :
    s'.Open j n where
  lt := Nat.lt_of_lt_of_le h.lt hm.size
  unsealed := (hm.sealed j h.lt hS).trans h.unsealed
  unended := (hm.term j h.lt).mpr ⟨h.unended, hE⟩
  params := (hm.params j h.lt hS h.unsealed).trans h.params

end Lowering

namespace Frame

variable {s s' : Lowering} {E N S : List Nat}

/-- A frame keeps its promises over steps that neither end a block it has to end nor seal a
block it names. -/
theorem Ok.moves {f : Frame} (h : f.Ok s) (hm : Lowering.Moves E N S s s')
    (hresults : s'.results = s.results) (hE : ∀ j ∈ E, j ∉ f.pending) (hS : ∀ j ∈ S, j ∉ f.blocks) :
    f.Ok s' where
  function hk := (h.function hk).trans hresults.symm
  following hk := (h.following hk).moves hm
    (fun hj => hE _ hj (Frame.mem_pending.mpr (.inl ⟨hk, rfl⟩)))
    (fun hj => hS _ hj (Frame.mem_blocks.mpr (.inl ⟨hk, rfl⟩)))
  loop hk := by
    obtain ⟨hlt, hsealed, hparams⟩ := h.loop hk
    have hS' : f.header ∉ S := fun hj => hS _ hj (Frame.mem_blocks.mpr (.inr ⟨.inl hk, rfl⟩))
    exact ⟨Nat.lt_of_lt_of_le hlt hm.size, (hm.sealed _ hlt hS').trans hsealed,
      (hm.params _ hlt hS' hsealed).trans hparams⟩
  ifNoElse hk := by
    obtain ⟨hlt, hnone, hargs⟩ := h.ifNoElse hk
    have hE' : f.header ∉ E := fun hj => hE _ hj (Frame.mem_pending.mpr (.inr ⟨hk, rfl⟩))
    exact ⟨Nat.lt_of_lt_of_le hlt hm.size, (hm.term _ hlt).mpr ⟨hnone, hE'⟩, hargs⟩

end Frame

namespace Lowering

variable {s s' : Lowering} {E N S : List Nat}

namespace Wf

/-- The blocks the frames name exist. -/
theorem lt_of_mem_blocksOf (hw : s.Wf) {j : Nat} (hj : j ∈ blocksOf s.frames) : j < s.blocks.size := by
  obtain ⟨f, hf, hj⟩ := mem_blocksOf.mp hj
  have hok := hw.frames f hf
  rcases Frame.mem_blocks.mp hj with ⟨hk, rfl⟩ | ⟨hk | hk, rfl⟩
  · exact (hok.following hk).lt
  · exact (hok.loop hk).1
  · exact (hok.ifNoElse hk).1

/-- Live code runs inside the function's frame. -/
theorem frames_ne (hw : s.Wf) (hlive : s.unreachable = false) : s.frames.size ≠ 0 :=
  fun h => by simp [hw.ended h] at hlive

theorem depth_eq (hw : s.Wf) (hlive : s.unreachable = false) : s.deadDepth = 0 :=
  Nat.eq_zero_of_not_pos fun h => by simp [hw.dead h] at hlive

/-- A run of live steps that adds frames `fs` naming only new blocks keeps the invariant, when it
ends no block an old frame has to end, adds edges only into blocks ended or named by old frames,
seals no block an old frame names, keeps the current block current while it is not ended, and
leaves each new block ended, current, to be ended by a new frame, or without edges and unnamed. -/
theorem extend {fs : Array Frame} (hw : s.Wf) (hlive : s.unreachable = false) (hc : s'.Coherent)
    (hm : Moves E N S s s') (hframes : s'.frames = s.frames ++ fs) (hresults : s'.results = s.results)
    (hdepth : s'.deadDepth = s.deadDepth)
    (hE : ∀ j ∈ E, j ∉ pendingOf s.frames)
    (hN : ∀ j ∈ N, j < s.blocks.size → termAt s.blocks j = none → j ∈ blocksOf s.frames)
    (hS : ∀ j ∈ S, j ∉ blocksOf s.frames) (hSr : ∀ r, s.retBlock = some r → r ∉ S)
    (hretNew : ∀ r, s'.retBlock = some r → s.retBlock = none →
      paramCount s'.blocks r = s.results.length ∧ r ∉ blocksOf s'.frames)
    (hok : ∀ f ∈ fs, f.Ok s') (hkind : ∀ f ∈ fs, f.kind ≠ .function)
    (hfresh : ∀ j ∈ blocksOf fs, s.blocks.size ≤ j) (hnodup : (blocksOf fs).Nodup)
    (hcur : termAt s'.blocks s.cur = none → s'.unreachable = false ∧ s'.cur = s.cur)
    (hreach : s'.unreachable = false →
      s'.cur < s'.blocks.size ∧ termAt s'.blocks s'.cur = none ∧ s'.cur ∉ pendingOf s'.frames)
    (hnew : ∀ j, s.blocks.size ≤ j → j < s'.blocks.size → termAt s'.blocks j = none →
      (s'.unreachable = false ∧ j = s'.cur) ∨ j ∈ pendingOf fs ∨
        (predsAt s'.states j = [] ∧ j ∉ blocksOf fs)) : s'.Wf where
  coherent := hc
  entry := Nat.lt_of_lt_of_le hw.entry hm.size
  frames f hf := by
    rw [hframes, Array.mem_append] at hf
    rcases hf with hf | hf
    · exact (hw.frames f hf).moves hm hresults
        (fun j hj hp => hE j hj (mem_pendingOf.mpr ⟨f, hf, hp⟩))
        (fun j hj hb => hS j hj (mem_blocksOf.mpr ⟨f, hf, hb⟩))
    · exact hok f hf
  bottom := by
    rw [hframes]
    intro i hi
    rw [Array.getElem_append]
    split
    · exact hw.bottom i _
    · -- a new frame sits above the function's, at a positive index
      rename_i hold
      have hne := hw.frames_ne hlive
      exact ⟨fun hk => absurd hk (hkind _ (Array.getElem_mem _)), fun h0 => by omega⟩
  distinct := by
    rw [hframes, blocksOf_append]
    refine List.nodup_append.mpr ⟨hw.distinct, hnodup, fun a ha b hb hab => ?_⟩
    have := hfresh b hb
    have := hw.lt_of_mem_blocksOf ha
    omega
  entryFree := by
    rw [hframes, blocksOf_append, List.mem_append, not_or]
    refine ⟨hw.entryFree, fun h0 => ?_⟩
    have := hfresh 0 h0
    have := hw.entry
    omega
  reach := hreach
  dangling j hj hnone := by
    rw [hframes, pendingOf_append, blocksOf_append]
    by_cases hold : j < s.blocks.size
    · obtain ⟨hnone₀, -⟩ := (hm.term j hold).mp hnone
      have hfs : j ∉ blocksOf fs := fun hb => Nat.lt_irrefl _ (Nat.lt_of_lt_of_le hold (hfresh j hb))
      rcases hw.dangling j hold hnone₀ with ⟨-, rfl⟩ | hp | ⟨h0, hpreds, hfb⟩
      · obtain ⟨hu, hcur'⟩ := hcur hnone
        exact .inl ⟨hu, hcur'.symm⟩
      · exact .inr (.inl (List.mem_append_left _ hp))
      · have hN' : j ∉ N := fun hn => hfb (hN j hn hold hnone₀)
        exact .inr (.inr ⟨h0, (hm.preds j hold hN').trans hpreds, by simp [hfb, hfs]⟩)
    · have hfb : j ∉ blocksOf s.frames := fun hb => hold (hw.lt_of_mem_blocksOf hb)
      rcases hnew j (Nat.le_of_not_lt hold) hj hnone with h | h | ⟨hpreds, hfs⟩
      · exact .inl h
      · exact .inr (.inl (List.mem_append_right _ h))
      · refine .inr (.inr ⟨fun h0 => ?_, hpreds, by simp [hfb, hfs]⟩)
        have := hw.entry
        omega
  dead hd := absurd (hw.dead (hdepth ▸ hd)) (by simp [hlive])
  ended h0 := by
    rw [hframes, Array.size_append] at h0
    exact absurd (Nat.eq_zero_of_add_eq_zero_right h0) (hw.frames_ne hlive)
  retParams r hr := by
    cases hs : s.retBlock with
    | none => exact hresults ▸ (hretNew r hr hs).1
    | some r₀ =>
      obtain ⟨hr₀, hparams⟩ := hm.ret r₀ hs (hSr r₀ hs)
      have hrr : r = r₀ := Option.some.inj (hr.symm.trans hr₀)
      rw [hrr, hparams, hresults]
      exact hw.retParams r₀ hs
  retFree r hr := by
    cases hs : s.retBlock with
    | none => exact (hretNew r hr hs).2
    | some r₀ =>
      have hrr : r = r₀ := Option.some.inj (hr.symm.trans (hm.ret r₀ hs (hSr r₀ hs)).1)
      subst hrr
      have hlt := (hw.coherent.linked.ret r hs).1
      rw [hframes, blocksOf_append, List.mem_append, not_or]
      exact ⟨hw.retFree r hs, fun hb => Nat.lt_irrefl _ (Nat.lt_of_lt_of_le hlt (hfresh r hb))⟩

/-- A run of live steps that leaves the frames alone keeps the invariant, when it ends no block
a frame has to end, adds edges only into blocks ended or named by frames, seals no block a frame
names, keeps the current block current while it is not ended, and leaves each new block ended,
current or without edges. -/
theorem keep (hw : s.Wf) (hlive : s.unreachable = false) (hc : s'.Coherent) (hm : Moves E N S s s')
    (hframes : s'.frames = s.frames) (hresults : s'.results = s.results)
    (hdepth : s'.deadDepth = s.deadDepth)
    (hE : ∀ j ∈ E, j ∉ pendingOf s.frames)
    (hN : ∀ j ∈ N, j < s.blocks.size → termAt s.blocks j = none → j ∈ blocksOf s.frames)
    (hS : ∀ j ∈ S, j ∉ blocksOf s.frames) (hSr : ∀ r, s.retBlock = some r → r ∉ S)
    (hretNew : ∀ r, s'.retBlock = some r → s.retBlock = none →
      paramCount s'.blocks r = s.results.length ∧ r ∉ blocksOf s.frames)
    (hcur : termAt s'.blocks s.cur = none → s'.unreachable = false ∧ s'.cur = s.cur)
    (hreach : s'.unreachable = false →
      s'.cur < s'.blocks.size ∧ termAt s'.blocks s'.cur = none ∧ s'.cur ∉ pendingOf s.frames)
    (hnew : ∀ j, s.blocks.size ≤ j → j < s'.blocks.size → termAt s'.blocks j = none →
      (s'.unreachable = false ∧ j = s'.cur) ∨ predsAt s'.states j = []) : s'.Wf :=
  hw.extend hlive hc hm (hframes.trans Array.append_empty.symm) hresults hdepth hE hN hS hSr
    (fun r hr hnone => hframes ▸ hretNew r hr hnone) (by simp) (by simp) (by simp [blocksOf])
    (by simp [blocksOf]) hcur (fun hu => hframes ▸ hreach hu)
    (fun j hj hj' hnone => (hnew j hj hj' hnone).imp_right fun h => .inr ⟨h, by simp [blocksOf]⟩)

/-- A run of live steps that changes only values, blocks, block states and the operand stack
with its backing array, and no block but for its parameters and operators, keeps the invariant. -/
theorem keepControl (hw : s.Wf) (hlive : s.unreachable = false) (hc : s'.Coherent)
    (hm : Moves [] [] [] s s') (hsize : s'.blocks.size = s.blocks.size)
    (hrest : ∃ bs vs sts st sp,
      s' = { s with blocks := bs, values := vs, states := sts, stack := st, spare := sp }) :
    s'.Wf := by
  obtain ⟨bs, vs, sts, st, sp, rfl⟩ := hrest
  obtain ⟨hlt, hnone, hpend⟩ := hw.reach hlive
  refine hw.keep hlive hc hm rfl rfl rfl (by simp) (by simp) (by simp) (fun _ _ => by simp)
    (fun r hr hnone => by simp only [hnone] at hr; cases hr) (fun _ => ⟨hlive, rfl⟩) (fun _ => ?_) (fun j hj hj' => ?_)
  · exact ⟨Nat.lt_of_lt_of_le hlt hm.size, (hm.term _ hlt).mpr ⟨hnone, by simp⟩, hpend⟩
  · simp only at hsize hj'
    omega

/-- Live code may replace the operand stack and its backing array by values already made. -/
theorem setOperands (hw : s.Wf) (hlive : s.unreachable = false) {st sp : Array Nat}
    (hst : ∀ v ∈ st, v < s.values.size) (hsp : ∀ v ∈ sp, v < s.values.size) :
    ({ s with stack := st, spare := sp } : Lowering).Wf :=
  hw.keepControl hlive (hw.coherent.of_control rfl rfl rfl rfl rfl hst hsp hw.coherent.bounded.elseArgs)
    (Moves.of_same rfl rfl rfl rfl (Nat.le_refl _) (Nat.le_refl _) rfl) rfl ⟨_, _, _, _, _, rfl⟩

/-- Live code may pop values off the operand stack. -/
theorem popOperands (hw : s.Wf) (hlive : s.unreachable = false) (k : Nat) :
    ({ s with
      stack := s.stack.extract 0 k
      spare := s.stack.extract k s.stack.size ++ s.spare } : Lowering).Wf := by
  have hb := hw.coherent.bounded
  exact hw.setOperands hlive (fun v hv => hb.stack v (mem_of_mem_extract hv))
    (popped_below hb.stack hb.spare)

/-- Ending the current block of live code with a terminator that fits, whose targets are ended
or named by frames. -/
theorem terminate (hw : s.Wf) (hlive : s.unreachable = false) {t : Terminator} (ht : s.Fits t)
    (htargets : ∀ e ∈ t.successors, termAt s.blocks e.block = none → e.block ∈ blocksOf s.frames)
    (h : (terminate t).run s = .ok ((), s')) :
    s'.Wf ∧ s'.frames = s.frames ∧ s'.deadDepth = s.deadDepth := by
  rw [terminate_run] at h
  cases h
  obtain ⟨hlt, hnone, hpend⟩ := hw.reach hlive
  have hb : s.Bounded := hw.coherent.bounded
  have hc := hw.coherent.link hlt hnone ht
  refine ⟨?_, rfl, rfl⟩
  refine hw.keep hlive (hc.of_control rfl rfl rfl rfl rfl hb.stack hb.spare hb.elseArgs)
    ((Moves.link hlt t fun e he => hw.coherent.linked.sizes ▸ (ht.targets e he).1).of_control
      rfl rfl rfl (.inl rfl)) rfl rfl rfl
    (fun j hj => ?_) (fun j hj _ hnone => ?_) (by simp) (by simp)
    (fun r hr hnone => by simp only [hnone] at hr; cases hr) (fun hcur => ?_) (by simp)
    (fun j hj hj' => by simp only [Array.size_modify] at hj'; omega)
  · rw [List.mem_singleton] at hj
    exact hj ▸ hpend
  · obtain ⟨e, he, rfl⟩ := List.mem_map.mp hj
    exact htargets e he hnone
  · simp [termAt_setTerm hlt] at hcur

end Wf

end Lowering

end WasmImage.Ssa
