import WasmImage.Proofs.ConstExpr
import WasmImage.Proofs.Segments
import WasmImage.Proofs.Resolution

/-!
# Regrouping the data section

Writing a view back as a module rebuilds its data section from the memories' segments
(`View.toModule`). Each segment becomes an active data segment whose offset is a constant: an
i64 constant in a 64-bit memory, else an i32 constant, which reads back as the offset it was
written from (`offset_constI32`, `offset_constI64`). A memory's segments are emitted together,
where the first active segment naming that memory stood, or after everything else for memories
that no segment named; passive segments stay in their order.

`toModule_outcome` says what comes out, for every view: the decoded module with a data section
regrouped so (`Regrouped`), or a refusal, and a refusal only when a segment of a 32-bit memory
starts past the last 32-bit address (`OffsetOutOfRange`) or when, with a data count section, a
passive segment would land at another index (`MovesPassive`, with `landsAt` that index).
-/

namespace WasmImage.View

open Wasm Reader

/-! ## Constant offsets -/

theorem constI32_data (i : Int) :
    (constI32 i).data.toList = 0x41 :: (Leb128.signed i ++ [0x0b]) := by
  simp [constI32, Writer.signed]

theorem constI64_data (i : Int) :
    (constI64 i).data.toList = 0x42 :: (Leb128.signed i ++ [0x0b]) := by
  simp [constI64, Writer.signed]

theorem isConstExpr_constI32 (x : Int32) : IsConstExpr (constI32 x.toInt) := by
  unfold IsConstExpr
  rw [constI32_data]
  exact .step (by decide) (((Leb128.readS32_reads x).lift _).bind_last (reads_pure ())) .done

theorem isConstExpr_constI64 (x : Int64) : IsConstExpr (constI64 x.toInt) := by
  unfold IsConstExpr
  rw [constI64_data]
  exact .step (by decide) (((Leb128.readS64_reads x).lift _).bind_last (reads_pure ())) .done

section Eval

variable (globals : Option GlobalLookup)

/-- The i32 constant is one instruction, run to its value. -/
theorem eval_constI32 (x : Int32) :
    ConstValue.eval (constI32 x.toInt) globals = .ok ⟨.i32, x.toUInt32.toUInt64, false⟩ := by
  have hdata : (constI32 x.toInt).data.toList = (0x41 :: Leb128.signed x.toInt) ++ [] ++ [0x0b] := by
    rw [constI32_data]
    simp
  exact eval_of_runs hdata (.cons (.i32Const (Leb128.readS32_reads x)) .nil) rfl

/-- The i64 constant is one instruction, run to its value. -/
theorem eval_constI64 (x : Int64) :
    ConstValue.eval (constI64 x.toInt) globals = .ok ⟨.i64, x.toUInt64, false⟩ := by
  have hdata : (constI64 x.toInt).data.toList = (0x42 :: Leb128.signed x.toInt) ++ [] ++ [0x0b] := by
    rw [constI64_data]
    simp
  exact eval_of_runs hdata (.cons (.i64Const (Leb128.readS64_reads x)) .nil) rfl

end Eval

/-- An offset below 2^32, written as the i32 constant with its bits, reads back as itself: the
resolver takes an i32 offset as unsigned. -/
theorem offset_constI32 (w : View) {o : UInt64} (ho : o ≤ 0xffffffff) (path : List String) :
    w.offset (constI32 o.toUInt32.toInt32.toInt) path = .ok o := by
  have hmask : o.toUInt32.toUInt64 &&& 0xffffffff = o := by
    apply UInt64.toNat_inj.mp
    simp only [UInt64.toNat_and, UInt32.toNat_toUInt64, UInt64.toNat_toUInt32]
    have : o.toNat ≤ 0xffffffff := UInt64.le_iff_toNat_le.mp ho
    rw [Nat.mod_eq_of_lt (by omega)]
    exact Nat.and_two_pow_sub_one_of_lt_two_pow (by omega : o.toNat < 2 ^ 32)
  simp only [View.offset, eval_constI32, UInt32.toUInt32_toInt32, beq_self_eq_true, if_true, hmask]

theorem offset_constI64 (w : View) (o : UInt64) (path : List String) :
    w.offset (constI64 o.toInt64.toInt) path = .ok o := by
  have hne : (ValType.i64 == ValType.i32) = false := by decide
  simp only [View.offset, eval_constI64, UInt64.toUInt64_toInt64, hne, beq_self_eq_true, if_true]
  rfl

/-! ## The data segments of one memory -/

/-- The active data segment that writes `seg` into memory `mem`: flags 0 for memory zero, else
flags 2 with the index; the offset as an i64 constant in a 64-bit memory, else as an i32
constant. -/
def segmentAt (mem : Nat) (memory64 : Bool) (seg : Segment) : DataSegment :=
  { flags := if mem = 0 then 0 else 2, memIdx := mem.toUInt32,
    offset := some (if memory64 then constI64 seg.offset.toInt64.toInt
      else constI32 seg.offset.toUInt32.toInt32.toInt),
    init := seg.data }

/-- A memory's segments start within its addresses: anywhere in a 64-bit memory, at most at
2^32 - 1 in a 32-bit one. -/
def MemoryData.OffsetsFit (md : MemoryData) : Prop :=
  md.memory64 = false → ∀ seg ∈ md.segments, seg.offset ≤ 0xffffffff

/-- The data segments that memory `j` of `v` is written as. -/
def segmentsOf (v : View) (j : Nat) : List DataSegment :=
  (v.memories[j]?.map fun md => md.segments.toList.map (segmentAt j md.memory64)).getD []

theorem segmentAt_isActive (mem : Nat) (memory64 : Bool) (seg : Segment) :
    (segmentAt mem memory64 seg).isActive = true := by
  unfold segmentAt DataSegment.isActive
  split <;> rfl

theorem mem_segmentsOf {v : View} {j : Nat} {d : DataSegment} :
    d ∈ v.segmentsOf j ↔
      ∃ md, v.memories[j]? = some md ∧ ∃ seg ∈ md.segments, d = segmentAt j md.memory64 seg := by
  unfold segmentsOf
  cases v.memories[j]? with
  | none => simp
  | some md =>
    simp only [Option.map_some, Option.getD_some, List.mem_map, Array.mem_toList_iff,
      Option.some.injEq, exists_eq_left']
    exact ⟨fun ⟨seg, hseg, hd⟩ => ⟨seg, hseg, hd.symm⟩, fun ⟨seg, hseg, hd⟩ => ⟨seg, hseg, hd.symm⟩⟩

theorem isActive_of_mem_segmentsOf {v : View} {j : Nat} {d : DataSegment}
    (hd : d ∈ v.segmentsOf j) : d.isActive = true := by
  obtain ⟨md, -, seg, -, rfl⟩ := mem_segmentsOf.mp hd
  exact segmentAt_isActive _ _ _

/-- Writing a memory whose offsets fit gives its segments, in order. -/
theorem dataSegments_of_fit {v : View} {j : Nat} {md : MemoryData} (hj : v.memories[j]? = some md)
    (hfit : md.OffsetsFit) : v.dataSegments j = .ok (v.segmentsOf j) := by
  unfold dataSegments segmentsOf
  rw [hj, Option.map_some, Option.getD_some]
  dsimp only
  have hmap : md.segments.toList.map (segmentAt j md.memory64) =
      md.segments.toList.zipIdx.map fun x => segmentAt j md.memory64 x.1 := by
    conv_lhs => rw [← List.zipIdx_map_fst 0 md.segments.toList]
    rw [List.map_map]
    rfl
  rw [hmap]
  refine mapM_eq_ok_map fun ⟨seg, i⟩ hseg => ?_
  have hmem : seg ∈ md.segments := Array.mem_toList_iff.mp (List.fst_mem_of_mem_zipIdx hseg)
  cases h64 : md.memory64
  · have hle : ¬ seg.offset > 0xffffffff := UInt64.not_lt.mpr (hfit h64 seg hmem)
    simp [segmentAt, hle]
    rfl
  · simp [segmentAt]
    rfl

/-- Writing a memory succeeds only when its offsets fit. -/
theorem offsetsFit_of_dataSegments {v : View} {j : Nat} {md : MemoryData}
    (hj : v.memories[j]? = some md) {l : List DataSegment} (h : v.dataSegments j = .ok l) :
    md.OffsetsFit := by
  intro h64 seg hseg
  unfold dataSegments at h
  rw [hj] at h
  obtain ⟨i, hi⟩ : ∃ i, (seg, i) ∈ md.segments.toList.zipIdx := by
    obtain ⟨i, hi, rfl⟩ := Array.mem_iff_getElem.mp hseg
    exact ⟨i, List.mem_zipIdx_iff_getElem?.mpr (by simp [hi])⟩
  -- the step for this segment succeeded, so it did not find the offset too large
  obtain ⟨d, hd⟩ := ok_of_mapM_eq_ok h _ hi
  by_contra hle
  have hgt : seg.offset > 0xffffffff := UInt64.not_le.mp hle
  simp [h64, hgt] at hd
  cases hd

theorem dataSegments_eq_ok {v : View} {j : Nat} {l : List DataSegment}
    (h : v.dataSegments j = .ok l) : l = v.segmentsOf j := by
  cases hj : v.memories[j]? with
  | none =>
    unfold dataSegments at h
    rw [hj] at h
    cases h
    simp [segmentsOf, hj]
  | some md =>
    rw [dataSegments_of_fit hj (offsetsFit_of_dataSegments hj h)] at h
    cases h
    rfl

theorem not_offsetsFit_of_error {v : View} {j : Nat} {e : Fault} (h : v.dataSegments j = .error e) :
    ∃ md, v.memories[j]? = some md ∧ ¬ md.OffsetsFit := by
  cases hj : v.memories[j]? with
  | none =>
    unfold dataSegments at h
    rw [hj] at h
    cases h
  | some md =>
    refine ⟨md, rfl, fun hfit => ?_⟩
    rw [dataSegments_of_fit hj hfit] at h
    cases h

/-! ## A data section regrouped by memory -/

/-- A data section written so far from the decoded segments `pre`: the memories `js` emitted,
each once and as its segments `S j`, in the order emitted, and the passive segments of `pre`, in
their order. -/
structure Regrouped (n : Nat) (S : Nat → List DataSegment) (pre : List DataSegment)
    (js : List Nat) (data : Array DataSegment) : Prop where
  nodup : js.Nodup
  bound : ∀ j ∈ js, j < n
  active : data.toList.filter (·.isActive) = (js.map S).flatten
  passive : data.toList.filter (!·.isActive) = pre.filter (!·.isActive)

section Regrouped

variable {n : Nat} {S : Nat → List DataSegment} {pre : List DataSegment} {js : List Nat}
  {data : Array DataSegment}

theorem regrouped_empty (n : Nat) (S : Nat → List DataSegment) : Regrouped n S [] [] #[] :=
  ⟨List.nodup_nil, by simp, rfl, rfl⟩

theorem Regrouped.push_passive (h : Regrouped n S pre js data) {d : DataSegment}
    (hd : d.isActive = false) : Regrouped n S (pre ++ [d]) js (data.push d) where
  nodup := h.nodup
  bound := h.bound
  active := by simp [List.filter_append, hd, h.active]
  passive := by simp [List.filter_append, hd, h.passive]

theorem Regrouped.skip (h : Regrouped n S pre js data) {d : DataSegment} (hd : d.isActive = true) :
    Regrouped n S (pre ++ [d]) js data :=
  { h with passive := by simp [List.filter_append, hd, h.passive] }

theorem Regrouped.emit (h : Regrouped n S pre js data) {j : Nat} (hnew : j ∉ js) (hlt : j < n)
    (hact : ∀ d ∈ S j, d.isActive = true) : Regrouped n S pre (js ++ [j]) (data ++ S j) where
  nodup := List.nodup_append.mpr ⟨h.nodup, List.nodup_singleton j, fun a ha b hb => by
    rw [List.mem_singleton.mp hb]
    rintro rfl
    exact hnew ha⟩
  bound := fun j' hj' => by
    rcases List.mem_append.mp hj' with hj' | hj'
    · exact h.bound j' hj'
    · rw [List.mem_singleton.mp hj']
      exact hlt
  active := by
    have hS : (S j).filter (·.isActive) = S j := List.filter_eq_self.mpr hact
    simp [List.filter_append, h.active, hS]
  passive := by
    have hS : (S j).filter (!·.isActive) = [] :=
      List.filter_eq_nil_iff.mpr fun d hd => by simp [hact d hd]
    simp [List.filter_append, h.passive, hS]

/-- The section holds the passive segments of `pre` and the segments of the memories emitted. -/
theorem Regrouped.size (h : Regrouped n S pre js data) :
    data.size = (pre.filter (!·.isActive)).length + (js.map fun j => (S j).length).sum := by
  have hsplit := data.toList.length_eq_length_filter_add (·.isActive)
  rw [h.active, h.passive, List.length_flatten, List.map_map, Array.length_toList] at hsplit
  rw [hsplit]
  exact Nat.add_comm _ _

theorem Regrouped.passive_mem (h : Regrouped n S pre js data) {d : DataSegment} (hd : d ∈ data)
    (hp : d.isActive = false) : d ∈ pre := by
  have hmem : d ∈ data.toList.filter (!·.isActive) :=
    List.mem_filter.mpr ⟨Array.mem_toList_iff.mpr hd, by simp [hp]⟩
  rw [h.passive] at hmem
  exact (List.mem_filter.mp hmem).1

theorem Regrouped.active_mem (h : Regrouped n S pre js data) {d : DataSegment} (hd : d ∈ data)
    (ha : d.isActive = true) : ∃ j ∈ js, d ∈ S j := by
  have hmem : d ∈ data.toList.filter (·.isActive) :=
    List.mem_filter.mpr ⟨Array.mem_toList_iff.mpr hd, ha⟩
  rw [h.active] at hmem
  simpa using hmem

/-- Of the segments of the memories `js`, each naming its own memory, those naming `j` are the
segments of `j`, if `j` is among them. -/
theorem filter_memIdx_flatten {S : Nat → List DataSegment} (j : Nat) :
    ∀ {js : List Nat}, js.Nodup → (∀ j' ∈ js, ∀ d ∈ S j', d.memIdx.toNat = j') →
      (js.map S).flatten.filter (fun d => d.memIdx.toNat == j) = if j ∈ js then S j else []
  | [], _, _ => by simp
  | j' :: js, hnd, hidx => by
    have hrest := filter_memIdx_flatten j (List.nodup_cons.mp hnd).2
      fun j'' hj'' => hidx j'' (List.mem_cons_of_mem j' hj'')
    have hown : (S j').filter (fun d => d.memIdx.toNat == j) = if j' = j then S j' else [] := by
      split
      · exact List.filter_eq_self.mpr fun d hd => by simp [hidx j' List.mem_cons_self d hd, *]
      · exact List.filter_eq_nil_iff.mpr fun d hd => by simp [hidx j' List.mem_cons_self d hd, *]
    rw [List.map_cons, List.flatten_cons, List.filter_append, hown, hrest]
    -- `j` is `j'` or among the rest, not both
    by_cases hj : j' = j
    · subst hj
      simp [(List.nodup_cons.mp hnd).1]
    · simp [hj, Ne.symm hj]

/-- Once every memory is emitted, memory `j`'s active segments are its own segments, when
segments name their memories. -/
theorem Regrouped.filter_memIdx (h : Regrouped n S pre js data) (hjs : js.Perm (List.range n))
    (hidx : ∀ j < n, ∀ d ∈ S j, d.memIdx.toNat = j) {j : Nat} (hj : j < n) :
    data.toList.filter (fun d => d.isActive && d.memIdx.toNat == j) = S j := by
  have hsplit : data.toList.filter (fun d => d.isActive && d.memIdx.toNat == j) =
      (data.toList.filter (·.isActive)).filter (fun d => d.memIdx.toNat == j) := by
    rw [List.filter_filter]
    congr 1
    funext d
    exact Bool.and_comm _ _
  rw [hsplit, h.active, filter_memIdx_flatten j h.nodup fun j' hj' => hidx j' (h.bound j' hj'),
    if_pos (hjs.mem_iff.mpr (List.mem_range.mpr hj))]

end Regrouped

/-! ## Passive segments that keep their index -/

/-- Every passive segment of `pre` stands at its own index in `data`. -/
def KeepsPassive (pre : List DataSegment) (data : Array DataSegment) : Prop :=
  ∀ i (hi : i < pre.length), pre[i].isActive = false → data[i]? = some pre[i]

section KeepsPassive

variable {pre : List DataSegment} {data : Array DataSegment}

theorem keepsPassive_nil (data : Array DataSegment) : KeepsPassive [] data :=
  fun _ hi => absurd hi (Nat.not_lt_zero _)

theorem KeepsPassive.append (h : KeepsPassive pre data) (l : List DataSegment) :
    KeepsPassive pre (data ++ l) := by
  intro i hi hp
  have hdata := h i hi hp
  have hlt : i < data.size := by
    by_contra hge
    rw [Array.getElem?_eq_none (Nat.le_of_not_lt hge)] at hdata
    cases hdata
  rw [← Array.getElem?_toList, Array.toList_appendList,
    List.getElem?_append_left (by simpa using hlt), Array.getElem?_toList, hdata]

theorem KeepsPassive.skip (h : KeepsPassive pre data) {d : DataSegment} (hd : d.isActive = true) :
    KeepsPassive (pre ++ [d]) data := by
  intro i hi hp
  rw [List.length_append, List.length_singleton] at hi
  -- the new segment is active, so only the old ones can be passive
  rcases Nat.lt_succ_iff_lt_or_eq.mp hi with hi | rfl
  · rw [List.getElem_append_left hi] at hp ⊢
    exact h i hi hp
  · simp [hd] at hp

theorem KeepsPassive.push (h : KeepsPassive pre data) {d : DataSegment}
    (hsize : data.size = pre.length) : KeepsPassive (pre ++ [d]) (data.push d) := by
  intro i hi hp
  rw [List.length_append, List.length_singleton] at hi
  rcases Nat.lt_succ_iff_lt_or_eq.mp hi with hi | rfl
  · rw [List.getElem_append_left hi] at hp ⊢
    rw [Array.getElem?_push, if_neg (by omega)]
    exact h i hi hp
  · rw [Array.getElem?_push, if_pos hsize.symm]
    simp

end KeepsPassive

/-! ## Where a segment lands, and why writing is refused -/

/-- The memories below `n` that an active segment among `pre` names, in increasing order. -/
def namedIn (n : Nat) (pre : List DataSegment) : List Nat :=
  (List.range n).filter fun j => pre.any fun d => d.isActive && d.memIdx.toNat == j

@[simp] theorem mem_namedIn {n j : Nat} {pre : List DataSegment} :
    j ∈ namedIn n pre ↔ j < n ∧ ∃ d ∈ pre, d.isActive = true ∧ d.memIdx.toNat = j := by
  simp [namedIn]

theorem nodup_namedIn (n : Nat) (pre : List DataSegment) : (namedIn n pre).Nodup :=
  List.nodup_range.filter _

/-- The index in the written data section at which segment `i` of the decoded one lands, had
nothing been refused: after the passive segments before it and the segments of every memory
that an active segment before it names. -/
def landsAt (v : View) (i : Nat) : Nat :=
  ((v.raw.data.toList.take i).filter (!·.isActive)).length +
    ((namedIn v.memories.size (v.raw.data.toList.take i)).map fun j => (v.segmentsOf j).length).sum

/-- Some segment of a 32-bit memory starts past the last address a 32-bit offset reaches. -/
def OffsetOutOfRange (v : View) : Prop :=
  ∃ (j : Nat) (md : MemoryData), v.memories[j]? = some md ∧ ¬ md.OffsetsFit

/-- With a data count section, some passive segment would land at another index than its own. -/
def MovesPassive (v : View) : Prop :=
  v.raw.dataCount.isSome ∧
    ∃ i, ∃ hi : i < v.raw.data.size, v.raw.data[i].isActive = false ∧ v.landsAt i ≠ i

/-- An element of a list with its index, seen in the list of all of them with their indices: its
index is the number before it, and those before it are the list's first ones. -/
theorem zipIdx_eq_append {α : Type} {xs : List α} {pre rest : List (α × Nat)} {a : α} {i : Nat}
    (h : pre ++ (a, i) :: rest = xs.zipIdx) :
    i = pre.length ∧ xs.take i = pre.map Prod.fst ∧ xs[i]? = some a := by
  have hget : xs.zipIdx[pre.length]? = some (a, i) := by
    rw [← h]
    simp
  rw [List.getElem?_zipIdx] at hget
  obtain ⟨b, hb, hba⟩ := Option.map_eq_some_iff.mp hget
  simp only [Nat.zero_add, Prod.mk.injEq] at hba
  obtain ⟨rfl, rfl⟩ := hba
  refine ⟨rfl, ?_, hb⟩
  have htake : xs.zipIdx.take pre.length = pre := by
    rw [← h]
    simp
  conv_rhs => rw [← htake]
  rw [List.map_take, List.zipIdx_map_fst]

/-! ## The pass over the decoded data section -/

/-- The pass over the decoded data section after its segments `pre`, in state `st`: the memories
marked, and the data section so far. The memories emitted, `js`, are those an active segment of
`pre` named, each written without refusal and marked; the passive segments kept their index
where a data count section needs it. -/
structure FirstPass (v : View) (pre : List DataSegment) (js : List Nat)
    (st : Array Bool × Array DataSegment) : Prop where
  regrouped : Regrouped v.memories.size v.segmentsOf pre js st.2
  size : st.1.size = v.memories.size
  marked : ∀ j < v.memories.size, j ∈ js ↔ st.1[j]! = true
  named : ∀ j, j ∈ js ↔ j ∈ namedIn v.memories.size pre
  written : ∀ j ∈ js, ∃ l, v.dataSegments j = .ok l
  keeps : v.raw.dataCount.isSome → KeepsPassive pre st.2

section FirstPass

variable {v : View} {pre : List DataSegment} {js : List Nat} {E : Array Bool}
  {D : Array DataSegment} {seg : DataSegment}

theorem firstPass_start (v : View) :
    FirstPass v [] [] (Array.replicate v.memories.size false, #[]) where
  regrouped := regrouped_empty _ _
  size := by simp
  marked := fun j hj => by simp [hj]
  named := fun j => by simp
  written := fun _ h => absurd h List.not_mem_nil
  keeps := fun _ => keepsPassive_nil _

/-- A passive segment kept in place. -/
theorem FirstPass.passive (h : FirstPass v pre js (E, D)) (hseg : seg.isActive = false)
    (hkeep : v.raw.dataCount.isSome → D.size = pre.length) :
    FirstPass v (pre ++ [seg]) js (E, D.push seg) where
  regrouped := h.regrouped.push_passive hseg
  size := h.size
  marked := h.marked
  named := fun j => by simp [h.named j, hseg]
  written := h.written
  keeps := fun hc => (h.keeps hc).push (hkeep hc)

/-- The first active segment that names a memory emits that memory's segments. -/
theorem FirstPass.emit (h : FirstPass v pre js (E, D)) (hseg : seg.isActive = true)
    (hlt : seg.memIdx.toNat < v.memories.size) (hnew : E[seg.memIdx.toNat]! = false)
    {l : List DataSegment} (hl : v.dataSegments seg.memIdx.toNat = .ok l) :
    FirstPass v (pre ++ [seg]) (js ++ [seg.memIdx.toNat])
      (E.set! seg.memIdx.toNat true, D ++ l) := by
  obtain rfl := dataSegments_eq_ok hl
  have hnotin : seg.memIdx.toNat ∉ js := fun hin => by
    simp [(h.marked _ hlt).mp hin] at hnew
  refine ⟨(h.regrouped.skip hseg).emit hnotin hlt fun d hd => isActive_of_mem_segmentsOf hd,
    by simp [h.size], fun j hj => ?_, fun j => ?_, fun j hj => ?_,
    fun hc => ((h.keeps hc).skip hseg).append _⟩
  · -- the marks: `j` is marked now exactly when it was, or it is the memory emitted
    have hjE : j < E.size := by rw [h.size]; exact hj
    have hkE : seg.memIdx.toNat < E.size := by rw [h.size]; exact hlt
    simp only [List.mem_append, List.mem_singleton, Array.set!,
      getElem!_pos (E.setIfInBounds _ _) j (by simpa using hjE), Array.getElem_setIfInBounds hjE]
    by_cases hjk : seg.memIdx.toNat = j
    · simp [hjk]
    · simp only [hjk, if_false, h.marked j hj, Ne.symm hjk, or_false, getElem!_pos E j hjE]
  · -- the memories named now: those named before, and the one this segment names
    rw [List.mem_append, List.mem_singleton, h.named j, mem_namedIn, mem_namedIn]
    constructor
    · rintro (⟨hj, d, hd, hda, hdj⟩ | rfl)
      · exact ⟨hj, d, List.mem_append_left _ hd, hda, hdj⟩
      · exact ⟨hlt, seg, List.mem_append_right _ (List.mem_singleton_self _), hseg, rfl⟩
    · rintro ⟨hj, d, hd, hda, hdj⟩
      rcases List.mem_append.mp hd with hd | hd
      · exact .inl ⟨hj, d, hd, hda, hdj⟩
      · rw [List.mem_singleton.mp hd] at hdj
        exact .inr hdj.symm
  · rcases List.mem_append.mp hj with hj | hj
    · exact h.written j hj
    · rw [List.mem_singleton.mp hj]
      exact ⟨_, hl⟩

/-- An active segment naming a memory already emitted, or none, adds nothing. -/
theorem FirstPass.skip (h : FirstPass v pre js (E, D)) (hseg : seg.isActive = true)
    (hold : seg.memIdx.toNat < v.memories.size → E[seg.memIdx.toNat]! = true) :
    FirstPass v (pre ++ [seg]) js (E, D) where
  regrouped := h.regrouped.skip hseg
  size := h.size
  marked := h.marked
  named := fun j => by
    rw [h.named j, mem_namedIn, mem_namedIn]
    constructor
    · rintro ⟨hj, d, hd, hda, hdj⟩
      exact ⟨hj, d, List.mem_append_left _ hd, hda, hdj⟩
    · rintro ⟨hj, d, hd, hda, rfl⟩
      rcases List.mem_append.mp hd with hd | hd
      · exact ⟨hj, d, hd, hda, rfl⟩
      · -- the memory it names was emitted before
        rw [List.mem_singleton.mp hd] at hj ⊢
        exact mem_namedIn.mp ((h.named _).mp ((h.marked _ hj).mpr (hold hj)))
  written := h.written
  keeps := fun hc => (h.keeps hc).skip hseg

/-- The data section so far holds as many segments as the index at which the next decoded
segment lands. -/
theorem FirstPass.size_eq_landsAt (h : FirstPass v pre js (E, D))
    (htake : v.raw.data.toList.take pre.length = pre) : D.size = v.landsAt pre.length := by
  have hperm : js.Perm (namedIn v.memories.size pre) :=
    (List.perm_ext_iff_of_nodup h.regrouped.nodup (nodup_namedIn _ _)).mpr h.named
  rw [h.regrouped.size, landsAt, htake, (hperm.map _).sum_eq]

end FirstPass

/-- The pass over the memories that no segment named, after the memories `pre`: the memories
emitted, `js`, are those marked in `E` or among `pre`, each written without refusal; every
passive segment stays where the decoded section had it. -/
structure SecondPass (v : View) (E : Array Bool) (pre : List Nat) (js : List Nat)
    (D : Array DataSegment) : Prop where
  regrouped : Regrouped v.memories.size v.segmentsOf v.raw.data.toList js D
  marked : ∀ j < v.memories.size, j ∈ js ↔ E[j]! = true ∨ j ∈ pre
  written : ∀ j ∈ js, ∃ l, v.dataSegments j = .ok l
  keeps : v.raw.dataCount.isSome → KeepsPassive v.raw.data.toList D

section SecondPass

variable {v : View} {E : Array Bool} {pre js : List Nat} {D : Array DataSegment}

theorem FirstPass.second (h : FirstPass v v.raw.data.toList js (E, D)) : SecondPass v E [] js D where
  regrouped := h.regrouped
  marked := fun j hj => by simp [h.marked j hj]
  written := h.written
  keeps := h.keeps

/-- A memory not emitted yet is emitted. -/
theorem SecondPass.emit (h : SecondPass v E pre js D) {mem : Nat} (hlt : mem < v.memories.size)
    (hnew : E[mem]! = false) (hfirst : mem ∉ pre) {l : List DataSegment}
    (hl : v.dataSegments mem = .ok l) : SecondPass v E (pre ++ [mem]) (js ++ [mem]) (D ++ l) := by
  obtain rfl := dataSegments_eq_ok hl
  have hnotin : mem ∉ js := fun hin => by
    rcases (h.marked mem hlt).mp hin with hE | hpre
    · simp [hE] at hnew
    · exact hfirst hpre
  refine ⟨h.regrouped.emit hnotin hlt fun d hd => isActive_of_mem_segmentsOf hd, fun j hj => ?_,
    fun j hj => ?_, fun hc => (h.keeps hc).append _⟩
  · simp only [List.mem_append, List.mem_singleton, h.marked j hj]
    tauto
  · rcases List.mem_append.mp hj with hj | hj
    · exact h.written j hj
    · rw [List.mem_singleton.mp hj]
      exact ⟨_, hl⟩

/-- A memory emitted by the first pass is not emitted again. -/
theorem SecondPass.skip (h : SecondPass v E pre js D) {mem : Nat} (hold : E[mem]! = true) :
    SecondPass v E (pre ++ [mem]) js D := by
  refine ⟨h.regrouped, fun j hj => ?_, h.written, h.keeps⟩
  rw [h.marked j hj, List.mem_append, List.mem_singleton]
  constructor
  · rintro (h | h)
    · exact .inl h
    · exact .inr (.inl h)
  · rintro (h | h | rfl)
    · exact .inl h
    · exact .inr h
    · exact .inl hold

theorem SecondPass.perm (h : SecondPass v E (List.range v.memories.size) js D) :
    js.Perm (List.range v.memories.size) := by
  refine (List.perm_ext_iff_of_nodup h.regrouped.nodup List.nodup_range).mpr fun j => ?_
  constructor
  · intro hj
    exact List.mem_range.mpr (h.regrouped.bound j hj)
  · intro hj
    exact (h.marked j (List.mem_range.mp hj)).mpr (.inr hj)

end SecondPass

/-! ## What writing a view gives -/

/-- The decoded module of `v` with the data section `D`, its data count, where it has one, set
to the number of segments of `D`. -/
def withData (v : View) (D : Array DataSegment) : Module :=
  { v.raw with data := D, dataCount := v.raw.dataCount.map fun _ => D.size.toUInt32 }

/-- Writing a view either gives the decoded module with its data section regrouped from every
memory's segments, every memory written without refusal and, with a data count section, every
passive segment at its index; or it is refused, and then an offset is out of range or a passive
segment would move. -/
theorem toModule_outcome (v : View) :
    (∃ D js, v.toModule = .ok (v.withData D) ∧ js.Perm (List.range v.memories.size) ∧
      Regrouped v.memories.size v.segmentsOf v.raw.data.toList js D ∧
      (∀ j ∈ js, ∃ l, v.dataSegments j = .ok l) ∧
      (v.raw.dataCount.isSome → KeepsPassive v.raw.data.toList D)) ∨
    ∃ e, v.toModule = .error e ∧ (v.OffsetOutOfRange ∨ v.MovesPassive) := by
  obtain ⟨r, hr⟩ : ∃ r, v.toModule = r := ⟨_, rfl⟩
  rw [hr]
  unfold toModule at hr
  obtain ⟨r₁, h₁, hr⟩ := bind_outcome hr
  refine (forIn_outcome (fun pre st => ∃ js, FirstPass v (pre.map Prod.fst) js st)
    (fun _ => v.OffsetOutOfRange ∨ v.MovesPassive) ?_ ⟨[], firstPass_start v⟩ h₁).elim ?_ ?_
  · -- one decoded segment
    rintro pre ⟨seg, i⟩ rest ⟨E, D⟩ r hpre ⟨js, hF⟩ hr
    obtain ⟨hi, htake, hget⟩ := zipIdx_eq_append hpre
    rw [List.map_append, List.map_singleton]
    dsimp only at hr
    split at hr
    · -- a passive segment is kept in place, unless that would renumber it
      rename_i hpass
      have hseg : seg.isActive = false := by simpa using hpass
      split at hr
      · rename_i hmoved
        simp only [Bool.and_eq_true, bne_iff_ne, ne_eq] at hmoved
        obtain ⟨hlt, hdi⟩ := List.getElem?_eq_some_iff.mp hget
        -- the data section so far ends where this segment would land
        have hland : D.size = v.landsAt i := by
          have := hF.size_eq_landsAt (by rw [List.length_map, ← hi, htake])
          rwa [List.length_map, ← hi] at this
        refine .inr ⟨_, hr.symm, .inr ⟨hmoved.2, i, by simpa using hlt, ?_, hland ▸ hmoved.1⟩⟩
        simpa [← Array.getElem_toList, hdi] using hseg
      · rename_i hkept
        refine .inl ⟨_, hr.symm, js, hF.passive hseg fun hc => ?_⟩
        simp only [Bool.and_eq_true, bne_iff_ne, ne_eq, not_and] at hkept
        rw [List.length_map, ← hi]
        by_contra hne
        exact hkept hne hc
    · rename_i hact
      have hseg : seg.isActive = true := by simpa using hact
      split at hr
      · -- the first active segment naming a memory emits it
        rename_i hnew
        simp only [Bool.and_eq_true, decide_eq_true_eq, Bool.not_eq_true'] at hnew
        cases hl : v.dataSegments seg.memIdx.toNat with
        | error e =>
          rw [hl] at hr
          exact .inr ⟨e, hr.symm, .inl ⟨_, not_offsetsFit_of_error hl⟩⟩
        | ok l =>
          rw [hl] at hr
          exact .inl ⟨_, hr.symm, _, hF.emit hseg hnew.1 hnew.2 hl⟩
      · rename_i hold
        refine .inl ⟨_, hr.symm, js, hF.skip hseg fun hlt => ?_⟩
        simpa [hlt] using hold
  · -- then the memories that no segment named
    rintro ⟨⟨E, D₁⟩, rfl, js₁, hfirst⟩
    rw [List.zipIdx_map_fst] at hfirst
    rw [ok_bind] at hr
    obtain ⟨r₂, h₂, hr⟩ := bind_outcome hr
    refine (forIn_range_outcome (fun pre D => ∃ js, SecondPass v E pre js D)
      (fun _ => v.OffsetOutOfRange ∨ v.MovesPassive) ?_ ⟨js₁, hfirst.second⟩ h₂).elim ?_ ?_
    · rintro pre mem rest D r hpre ⟨js, hS⟩ hr
      have hlt : mem < v.memories.size := List.mem_range.mp (hpre ▸ by simp)
      have hfirst : mem ∉ pre := by
        have hnd := hpre ▸ (List.nodup_range : (List.range v.memories.size).Nodup)
        exact fun hin => (List.nodup_append.mp hnd).2.2 mem hin mem (by simp) rfl
      dsimp only at hr
      split at hr
      · rename_i hnew
        cases hl : v.dataSegments mem with
        | error e =>
          rw [hl] at hr
          exact .inr ⟨e, hr.symm, .inl ⟨_, not_offsetsFit_of_error hl⟩⟩
        | ok l =>
          rw [hl] at hr
          exact .inl ⟨_, hr.symm, _, hS.emit hlt (by simpa using hnew) hfirst hl⟩
      · rename_i hold
        exact .inl ⟨_, hr.symm, js, hS.skip (by simpa using hold)⟩
    · rintro ⟨D, rfl, js, hS⟩
      exact .inl ⟨D, js, hr.symm, hS.perm, hS.regrouped, hS.written, hS.keeps⟩
    · rintro ⟨e, rfl, hbad⟩
      exact .inr ⟨e, hr.symm, hbad⟩
  · rintro ⟨e, rfl, hbad⟩
    exact .inr ⟨e, hr.symm, hbad⟩

end WasmImage.View
