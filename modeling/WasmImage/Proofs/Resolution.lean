import WasmImage.Proofs.Loops
import WasmImage.View.Encode
import WasmImage.View.Resolve

/-!
# Stages of resolution

Resolving a module runs in three stages: the prelude (imports, functions, tables, memories,
globals and exports), then the data segments, which only add segments to memories, then the
element segments, which only write table slots and read nothing but the globals and the tables.
No stage reads the module the view keeps.

So a module whose data section is replaced by segments at constant offsets resolves to the view
of the original module with those segments in its memories (`ofModule_replaceData_const`, and
`ofModule_replaceData` for offset zero).
-/

namespace WasmImage.View

open Wasm

/-! ## The stages -/

/-- Everything resolution does before it reads the segments. -/
def prelude (raw : Module) : Except Failure View := do
  let v : View := raw.imports.foldl addImport { raw, signatures := raw.types }
  let v := raw.funcs.foldl (fun v t => { v with funcs := v.funcs.push ⟨t, false⟩ }) v
  let v := raw.tables.foldl (fun v t => { v with tables := v.tables.push (.ofType t false) }) v
  let v := raw.memories.foldl (fun v l => { v with memories := v.memories.push (.ofLimits l false) }) v
  let v ← (foldIndexed v raw.globals addGlobal).mapError .fault
  return raw.exports.foldl (fun v e => { v with exports := v.exports.push ⟨e.name, e.idx, e.kind⟩ }) v

/-- Resolution is the prelude, then the data segments, then the element segments. -/
theorem ofModule_eq (raw : Module) :
    ofModule raw = (do
      let v ← prelude raw
      let v ← (foldIndexed v raw.data addData).mapError .fault
      foldIndexed v raw.elements addElement) := by
  simp only [ofModule, prelude, bind_assoc, pure_bind]

/-! ## The prelude never reads the module it keeps -/

/-- The view with another module kept. -/
def withRaw (v : View) (r : Module) : View := { v with raw := r }

@[simp] theorem withRaw_raw (v : View) (r : Module) : (v.withRaw r).raw = r := rfl

section Raw

variable {α ε : Type}

theorem foldl_withRaw {f : View → α → View} (hf : ∀ v a r, f (v.withRaw r) a = (f v a).withRaw r) :
    ∀ (xs : List α) (v : View) (r : Module), xs.foldl f (v.withRaw r) = (xs.foldl f v).withRaw r
  | [], _, _ => rfl
  | x :: xs, v, r => by
    rw [List.foldl_cons, List.foldl_cons, hf, foldl_withRaw hf xs]

theorem foldlM_withRaw {f : View → α → Except ε View}
    (hf : ∀ v a r, f (v.withRaw r) a = (·.withRaw r) <$> f v a) :
    ∀ (xs : List α) (v : View) (r : Module),
      xs.foldlM f (v.withRaw r) = (·.withRaw r) <$> xs.foldlM f v
  | [], _, _ => rfl
  | x :: xs, v, r => by
    rw [List.foldlM_cons, List.foldlM_cons, hf]
    cases f v x with
    | error e => rfl
    | ok w => exact foldlM_withRaw hf xs w r

theorem addImport_withRaw (v : View) (imp : Import) (r : Module) :
    addImport (v.withRaw r) imp = (addImport v imp).withRaw r := by
  unfold addImport withRaw
  split <;> rfl

theorem addGlobal_withRaw (v : View) (i : Nat) (g : Global) (r : Module) :
    addGlobal (v.withRaw r) i g = (·.withRaw r) <$> addGlobal v i g := by
  unfold addGlobal withRaw
  simp only [bind, Except.bind, Functor.map, Except.map]
  split <;> rfl

/-- The last steps of the prelude, on a result whose module kept was replaced. -/
theorem mapError_bind_withRaw (X : Except Fault View) {g : View → View}
    (hg : ∀ v r, g (v.withRaw r) = (g v).withRaw r) (r : Module) :
    (Except.mapError Failure.fault ((·.withRaw r) <$> X) >>= fun v =>
        (pure (g v) : Except Failure View)) =
      (·.withRaw r) <$> (Except.mapError Failure.fault X >>= fun v =>
        (pure (g v) : Except Failure View)) := by
  cases X with
  | error e => rfl
  | ok w =>
    show (pure (g (w.withRaw r)) : Except Failure View) = pure ((g w).withRaw r)
    rw [hg]

/-- Replacing the data section changes nothing the prelude computes but the module kept. -/
theorem prelude_replaceData (raw : Module) (data : Array DataSegment) (dataCount : Option UInt32) :
    prelude { raw with data, dataCount } = (·.withRaw { raw with data, dataCount }) <$> prelude raw := by
  have hstart : ({ raw := { raw with data, dataCount }, signatures := raw.types } : View) =
      ({ raw, signatures := raw.types } : View).withRaw { raw with data, dataCount } := rfl
  unfold prelude foldIndexed
  simp only [← Array.foldl_toList]
  rw [hstart, foldl_withRaw addImport_withRaw, foldl_withRaw (fun _ _ _ => rfl),
    foldl_withRaw (fun _ _ _ => rfl), foldl_withRaw (fun _ _ _ => rfl),
    foldlM_withRaw (fun v a r => addGlobal_withRaw v a.2 a.1 r),
    mapError_bind_withRaw _ (foldl_withRaw (fun _ _ _ => rfl) _)]

end Raw

theorem prelude_raw {raw : Module} {v : View} (h : prelude raw = .ok v) : v.raw = raw := by
  have hsame := prelude_replaceData raw raw.data raw.dataCount
  rw [h] at hsame
  injection hsame with hv
  rw [hv]
  rfl

/-! ## Invariants of folds -/

section Folds

variable {α ε : Type}

theorem foldl_inv (I : View → Prop) {f : View → α → View} (hf : ∀ v a, I v → I (f v a)) :
    ∀ (xs : List α) (v : View), I v → I (xs.foldl f v)
  | [], _, hv => hv
  | x :: xs, v, hv => foldl_inv I hf xs (f v x) (hf v x hv)

theorem foldlM_inv (I : View → Prop) {f : View → α → Except ε View} :
    ∀ (xs : List α), (∀ v a w, a ∈ xs → I v → f v a = .ok w → I w) →
      ∀ (v w : View), I v → xs.foldlM f v = .ok w → I w
  | [], _, _, _, hv, h => by
    cases h
    exact hv
  | x :: xs, hf, v, w, hv, h => by
    rw [List.foldlM_cons] at h
    obtain ⟨u, hx, h⟩ := bind_eq_ok h
    exact foldlM_inv I xs (fun v a w ha => hf v a w (List.mem_cons_of_mem x ha)) u w
      (hf v x u List.mem_cons_self hv hx) h

end Folds

/-- A defined global changes nothing but the globals. -/
theorem addGlobal_frame {v w : View} {i : Nat} {g : Global} (h : addGlobal v i g = .ok w) :
    w = { v with globals := w.globals } := by
  unfold addGlobal at h
  simp only [bind, Except.bind] at h
  split at h
  · cases h
    rfl
  · cases h
    rfl
  · cases h

theorem addGlobal_memories {v w : View} {i : Nat} {g : Global} (h : addGlobal v i g = .ok w) :
    w.memories = v.memories := by
  have hw := congrArg View.memories (addGlobal_frame h)
  exact hw

theorem addGlobal_tables {v w : View} {i : Nat} {g : Global} (h : addGlobal v i g = .ok w) :
    w.tables = v.tables := by
  have hw := congrArg View.tables (addGlobal_frame h)
  exact hw

theorem mapError_bind_pure_eq_ok {X : Except Fault View} {g : View → View} {w : View}
    (h : (Except.mapError Failure.fault X >>= fun v => (pure (g v) : Except Failure View)) = .ok w) :
    ∃ u, X = .ok u ∧ w = g u := by
  cases X with
  | error e => cases h
  | ok u =>
    injection h with h
    exact ⟨u, rfl, h.symm⟩

/-- A view whose memories have no segments yet. -/
def Unwritten (v : View) : Prop := ∀ md ∈ v.memories, md.segments = #[]

theorem unwritten_push {v : View} (hv : v.Unwritten) (l : Limits) (imported : Bool) :
    ∀ md ∈ v.memories.push (.ofLimits l imported), md.segments = #[] := by
  intro md hmd
  rcases Array.mem_push.mp hmd with hmd | rfl
  · exact hv md hmd
  · rfl

theorem addImport_unwritten {v : View} (hv : v.Unwritten) (imp : Import) :
    (addImport v imp).Unwritten := by
  unfold addImport
  split
  · exact hv
  · exact hv
  · exact unwritten_push hv _ _
  · exact hv

/-- A property of views that every step of the prelude keeps holds of what the prelude gives. -/
theorem prelude_inv (I : View → Prop) {raw : Module} {v : View} (h : prelude raw = .ok v)
    (hinit : I { raw, signatures := raw.types })
    (himport : ∀ w (imp : Import), I w → I (addImport w imp))
    (hfunc : ∀ w (t : UInt32), I w → I { w with funcs := w.funcs.push ⟨t, false⟩ })
    (htable : ∀ w (t : TableType), I w → I { w with tables := w.tables.push (.ofType t false) })
    (hmemory : ∀ w (l : Limits), I w →
      I { w with memories := w.memories.push (.ofLimits l false) })
    (hglobal : ∀ w (i : Nat) (g : Global) w', I w → addGlobal w i g = .ok w' → I w')
    (hexport : ∀ w (e : Export), I w →
      I { w with exports := w.exports.push ⟨e.name, e.idx, e.kind⟩ }) :
    I v := by
  unfold prelude foldIndexed at h
  simp only [← Array.foldl_toList] at h
  obtain ⟨u, hu, rfl⟩ := mapError_bind_pure_eq_ok h
  -- the steps in order: imports, functions, tables, memories, globals, exports
  refine foldl_inv I (fun w e hw => hexport w e hw) _ _ (foldlM_inv I _ ?_ _ _ ?_ hu)
  · rintro w ⟨g, i⟩ w' - hw hstep
    exact hglobal w i g w' hw hstep
  refine foldl_inv I (fun w l hw => hmemory w l hw) _ _ ?_
  refine foldl_inv I (fun w t hw => htable w t hw) _ _ ?_
  refine foldl_inv I (fun w t hw => hfunc w t hw) _ _ ?_
  exact foldl_inv I (fun w imp hw => himport w imp hw) _ _ hinit

/-- The prelude makes every memory with no segments. -/
theorem prelude_unwritten {raw : Module} {v : View} (h : prelude raw = .ok v) : v.Unwritten := by
  -- only memories come with segments, and they come with none
  refine prelude_inv Unwritten h (fun md hmd => by simp at hmd) (fun w imp hw => addImport_unwritten hw imp)
    (fun _ _ hw => hw) (fun _ _ hw => hw) (fun w l hw => unwritten_push hw l false)
    (fun w _ _ w' hw hstep => ?_) (fun _ _ hw => hw)
  rw [Unwritten, addGlobal_memories hstep]
  exact hw

/-! ## The number of memories -/

theorem foldl_memories_size {α : Type} {f : View → α → View} (k : Nat)
    (hf : ∀ v a, (f v a).memories.size ≤ v.memories.size + k) :
    ∀ (xs : List α) (v : View), (xs.foldl f v).memories.size ≤ v.memories.size + k * xs.length
  | [], v => by simp
  | x :: xs, v => by
    have hrest := foldl_memories_size k hf xs (f v x)
    have hstep := hf v x
    rw [List.foldl_cons, List.length_cons, Nat.mul_succ]
    omega

theorem addImport_memories_size (v : View) (imp : Import) :
    (addImport v imp).memories.size ≤ v.memories.size + 1 := by
  unfold addImport
  split <;> simp

/-- Imports and definitions each add at most one memory. -/
theorem prelude_memories_size {raw : Module} {v : View} (h : prelude raw = .ok v) :
    v.memories.size ≤ raw.imports.size + raw.memories.size := by
  unfold prelude foldIndexed at h
  simp only [← Array.foldl_toList] at h
  obtain ⟨u, hu, rfl⟩ := mapError_bind_pure_eq_ok h
  -- exports and globals leave the memories alone
  refine foldl_inv (fun w => w.memories.size ≤ raw.imports.size + raw.memories.size)
    (fun _ _ hw => ?_) _ _ (foldlM_inv (fun w => w.memories.size ≤ raw.imports.size +
      raw.memories.size) _ (fun w _ w' _ hw hstep => ?_) _ _ ?_ hu)
  · exact hw
  · rw [addGlobal_memories hstep]
    exact hw
  -- each defined memory adds one, functions and tables none, each import at most one
  refine Nat.le_trans (foldl_memories_size 1 (fun _ _ => by simp) _ _) ?_
  refine Nat.le_trans
    (Nat.add_le_add_right (foldl_memories_size 0 (fun _ _ => by simp) _ _) _) ?_
  refine Nat.le_trans (Nat.add_le_add_right
    (Nat.add_le_add_right (foldl_memories_size 0 (fun _ _ => by simp) _ _) _) _) ?_
  have himports := foldl_memories_size 1 addImport_memories_size raw.imports.toList
    { raw, signatures := raw.types }
  simp only [Nat.zero_mul, Nat.add_zero, Nat.one_mul, Array.length_toList] at himports ⊢
  simp only [Array.size_empty, Nat.zero_add] at himports
  omega

/-! ## The data stage only adds segments to memories -/

/-- The memories after data segment `i`, from the globals and the memories before it. -/
def dataMemories (globals : Array GlobalData) (memories : Array MemoryData) (i : Nat)
    (seg : DataSegment) : Except Fault (Array MemoryData) :=
  View.memories <$> addData { raw := {}, signatures := #[], globals, memories } i seg

/-- A data segment changes nothing but the memories, and reads nothing but the globals and the
memories. -/
theorem addData_eq (v : View) (i : Nat) (seg : DataSegment) :
    addData v i seg = (fun ms => { v with memories := ms }) <$>
      dataMemories v.globals v.memories i seg := by
  unfold dataMemories addData
  simp only [View.offset, bind, Except.bind, Functor.map, Except.map]
  -- both sides run the same checks; each outcome agrees field by field
  split
  · rfl
  · split
    · rfl
    · split <;> rfl

/-- A memory without its segments. -/
def MemoryData.clear (md : MemoryData) : MemoryData := { md with segments := #[] }

theorem addData_clear {v w : View} {i : Nat} {seg : DataSegment} (h : addData v i seg = .ok w) :
    w.memories.map MemoryData.clear = v.memories.map MemoryData.clear := by
  unfold addData at h
  simp only [bind, Except.bind] at h
  split at h
  · cases h
    rfl
  · split at h
    · cases h
    · split at h
      · cases h
      · cases h
        apply Array.ext
        · simp
        · intro j hj _
          simp only [Array.getElem_map, Array.getElem_modify]
          split <;> rfl

/-- The data stage changes only the segments of the memories. -/
theorem data_frame {P : View} : ∀ (ds : List DataSegment) (n : Nat) (Q : View),
    (ds.zipIdx n).foldlM (fun v (x, i) => addData v i x) P = .ok Q →
      Q = { P with memories := Q.memories } ∧
        Q.memories.map MemoryData.clear = P.memories.map MemoryData.clear := by
  intro ds n Q h
  refine foldlM_inv (fun w => w = { P with memories := w.memories } ∧
      w.memories.map MemoryData.clear = P.memories.map MemoryData.clear) _ ?_ P Q
    ⟨rfl, rfl⟩ h
  rintro w ⟨d, i⟩ w' - ⟨hw, hclear⟩ hstep
  dsimp only at hstep
  refine ⟨?_, (addData_clear hstep).trans hclear⟩
  rw [addData_eq] at hstep
  cases hm : dataMemories w.globals w.memories i d with
  | error e => rw [hm] at hstep; cases hstep
  | ok ms =>
    rw [hm] at hstep
    cases hstep
    rw [hw]

/-- Every segment a data segment adds holds its contents. -/
theorem addData_segments {w w' : View} {i : Nat} {d : DataSegment} (h : addData w i d = .ok w') :
    ∀ md' ∈ w'.memories, ∀ seg ∈ md'.segments,
      (∃ md ∈ w.memories, seg ∈ md.segments) ∨ seg.data = d.init := by
  intro md' hmd' seg hseg
  unfold addData at h
  simp only [bind, Except.bind] at h
  split at h
  · cases h
    exact .inl ⟨md', hmd', hseg⟩
  · split at h
    · cases h
    · split at h
      · cases h
      · cases h
        obtain ⟨j, hj, rfl⟩ := Array.mem_iff_getElem.mp hmd'
        simp only [Array.getElem_modify] at hseg
        split at hseg
        · rcases Array.mem_push.mp hseg with hseg | rfl
          · exact .inl ⟨_, Array.getElem_mem _, hseg⟩
          · exact .inr rfl
        · exact .inl ⟨_, Array.getElem_mem _, hseg⟩

/-! ## Segments at constant offsets -/

/-- A segment whose offset resolves to `o` in every view: its expression reads no global. -/
def ConstOffset (d : DataSegment) (o : UInt64) : Prop :=
  ∀ (w : View) (path : List String), w.offset (d.offset.getD ByteArray.empty) path = .ok o

/-- The contents of the active segments of `D` for memory `j`, in order, each at the offset
`off` gives it. -/
def placedSegments (D : List DataSegment) (off : DataSegment → UInt64) (j : Nat) : Array Segment :=
  ((D.filter fun d => d.isActive && d.memIdx.toNat == j).map
    fun d => (⟨off d, d.init⟩ : Segment)).toArray

theorem placedSegments_cons (d : DataSegment) (D : List DataSegment) (off : DataSegment → UInt64)
    (j : Nat) :
    placedSegments (d :: D) off j =
      (if d.isActive && d.memIdx.toNat == j then #[⟨off d, d.init⟩] else #[]) ++
        placedSegments D off j := by
  unfold placedSegments
  rw [List.filter_cons]
  split <;> simp

theorem addData_passive (v : View) (i : Nat) {d : DataSegment} (hd : d.isActive = false) :
    addData v i d = .ok v := by
  simp [addData, hd]
  rfl

/-- An active segment whose offset resolves to `o` adds its contents at `o` to its memory. -/
theorem addData_active (v : View) (i : Nat) {d : DataSegment} {o : UInt64}
    (hd : d.isActive = true) (hidx : d.memIdx.toNat < v.memories.size)
    (ho : ∀ path, v.offset (d.offset.getD ByteArray.empty) path = .ok o) :
    addData v i d = .ok { v with memories := v.memories.modify d.memIdx.toNat fun md =>
      { md with segments := md.segments.push ⟨o, d.init⟩ } } := by
  simp [addData, hd, Nat.not_le.mpr hidx, ho]

/-- Data segments whose offsets resolve over the globals of `v` add, to each memory, the contents
of its segments in order, each at its offset. -/
theorem placedData_foldlM (off : DataSegment → UInt64) : ∀ (D : List DataSegment) (n : Nat) (v : View),
    (∀ d ∈ D, d.isActive → d.memIdx.toNat < v.memories.size ∧
      ∀ path, v.offset (d.offset.getD ByteArray.empty) path = .ok (off d)) →
      (D.zipIdx n).foldlM (fun v (x, i) => addData v i x) v =
        .ok { v with memories := v.memories.mapIdx fun j md =>
          { md with segments := md.segments ++ placedSegments D off j } }
  | [], _, v, _ => by
    simp only [List.zipIdx_nil, List.foldlM_nil, placedSegments, List.filter_nil, List.map_nil,
      Array.append_empty]
    show Except.ok _ = Except.ok _
    cases v
    congr 2
    apply Array.ext
    · simp
    · intro j _ _
      simp
  | d :: D, n, v, hD => by
    have hrest := placedData_foldlM off D (n + 1)
    rw [List.zipIdx_cons, List.foldlM_cons]
    dsimp only
    cases hact : d.isActive with
    | false =>
      rw [addData_passive v n hact]
      show List.foldlM _ v _ = _
      rw [hrest v (fun d' hd' => hD d' (List.mem_cons_of_mem d hd'))]
      simp [placedSegments_cons, hact]
    | true =>
      obtain ⟨hidx, ho⟩ := hD d List.mem_cons_self hact
      rw [addData_active v n hact hidx ho]
      show List.foldlM _ _ _ = _
      rw [hrest _ (fun d' hd' hact' => ?_)]
      · congr 2
        apply Array.ext
        · simp
        · intro j _ _
          simp only [Array.getElem_mapIdx, Array.getElem_modify, placedSegments_cons, hact]
          split <;> simp_all
      · -- adding a segment keeps the globals, so the later offsets resolve as before
        obtain ⟨hidx', ho'⟩ := hD d' (List.mem_cons_of_mem d hd') hact'
        exact ⟨by simpa using hidx', ho'⟩

/-- Data segments at constant offsets add, to each memory, the contents of its segments in
order, each at its offset. -/
theorem constData_foldlM (off : DataSegment → UInt64) : ∀ (D : List DataSegment) (n : Nat) (v : View),
    (∀ d ∈ D, d.isActive → d.memIdx.toNat < v.memories.size ∧ ConstOffset d (off d)) →
      (D.zipIdx n).foldlM (fun v (x, i) => addData v i x) v =
        .ok { v with memories := v.memories.mapIdx fun j md =>
          { md with segments := md.segments ++ placedSegments D off j } } :=
  fun D n v hD => placedData_foldlM off D n v fun d hd hact => ⟨(hD d hd hact).1, (hD d hd hact).2 v⟩

/-! ## Segments written at offset zero -/

/-- An offset that is the constant zero, as an i32 or an i64. -/
def ZeroOffset (d : DataSegment) : Prop := d.offset = some (constI32 0) ∨ d.offset = some (constI64 0)

/-- The contents of the active segments of `D` for memory `j`, in order, each at offset zero. -/
def zeroSegments (D : List DataSegment) (j : Nat) : Array Segment :=
  ((D.filter fun d => d.isActive && d.memIdx.toNat == j).map fun d => (⟨0, d.init⟩ : Segment)).toArray

theorem offset_zero (v : View) {e : ByteArray} (he : e = constI32 0 ∨ e = constI64 0)
    (path : List String) : v.offset e path = .ok 0 := by
  rcases he with rfl | rfl
  · have h : ConstValue.eval (constI32 0) (some (knownGlobal v.globals)) = .ok ⟨.i32, 0, false⟩ := by
      cbv
    simp [View.offset, h]
  · have h : ConstValue.eval (constI64 0) (some (knownGlobal v.globals)) = .ok ⟨.i64, 0, false⟩ := by
      cbv
    simp [View.offset, h]

theorem ZeroOffset.const {d : DataSegment} (hz : ZeroOffset d) : ConstOffset d 0 := by
  intro w path
  apply offset_zero
  rcases hz with h | h <;> simp [h]

/-! ## The element stage only writes table slots -/

/-- The tables after element segment `i`, from the globals and the tables before it. -/
def elementTables (globals : Array GlobalData) (tables : Array TableData) (i : Nat) (e : Element) :
    Except Failure (Array TableData) :=
  View.tables <$> addElement { raw := {}, signatures := #[], globals, tables } i e

/-- An element segment changes nothing but the tables, and reads nothing but the globals and the
tables. -/
theorem addElement_eq (v : View) (i : Nat) (e : Element) :
    addElement v i e = (fun ts => { v with tables := ts }) <$> elementTables v.globals v.tables i e := by
  unfold elementTables addElement
  simp only [View.offset]
  -- both sides run the same checks; each outcome agrees field by field
  split
  · rfl
  · split
    · split
      · rfl
      · simp only [bind, Except.bind]
        split <;> try rfl
        split <;> try rfl
        split
        · rfl
        · simp only [Functor.map, Except.map]
          split <;> rfl
    · rfl

/-- The element stage writes the tables from the globals and the tables alone. -/
theorem elements_foldlM : ∀ (es : List (Element × Nat)) (v : View),
    es.foldlM (fun v (x, i) => addElement v i x) v =
      (fun ts => { v with tables := ts }) <$>
        es.foldlM (fun ts (x, i) => elementTables v.globals ts i x) v.tables
  | [], v => rfl
  | (e, i) :: es, v => by
    rw [List.foldlM_cons, List.foldlM_cons]
    dsimp only
    rw [addElement_eq]
    cases elementTables v.globals v.tables i e with
    | error err => rfl
    | ok ts => exact elements_foldlM es { v with tables := ts }

/-- Memories that agree but for their segments, the first with none, take the same segments. -/
theorem segments_of_clear {P Q : Array MemoryData} (hP : ∀ md ∈ P, md.segments = #[])
    (hclear : Q.map MemoryData.clear = P.map MemoryData.clear) (f : Nat → Array Segment) :
    P.mapIdx (fun j md => { md with segments := md.segments ++ f j }) =
      Q.mapIdx (fun j md => { md with segments := f j }) := by
  have hsize : Q.size = P.size := by simpa using congrArg Array.size hclear
  apply Array.ext
  · simp [hsize]
  · intro j hj _
    have hjP : j < P.size := by simpa using hj
    have hjQ : j < Q.size := by omega
    have hc : Q[j].clear = P[j].clear := by
      have := congrArg (fun a => a[j]?) hclear
      simpa [hjP, hjQ] using this
    simp only [Array.getElem_mapIdx, hP _ (Array.getElem_mem hjP), Array.empty_append]
    revert hc
    cases Q[j]
    cases P[j]
    simp only [MemoryData.clear, MemoryData.mk.injEq, and_true]
    rintro ⟨rfl, rfl, rfl, rfl⟩
    exact ⟨rfl, rfl, rfl, rfl⟩

/-- Every segment of a resolved module's memories holds the contents of one of its data
segments. -/
theorem ofModule_segments {raw : Module} {v : View} (h : ofModule raw = .ok v) :
    ∀ md ∈ v.memories, ∀ seg ∈ md.segments, ∃ d ∈ raw.data, seg.data = d.init := by
  rw [ofModule_eq] at h
  obtain ⟨P, hP, h⟩ := bind_eq_ok h
  obtain ⟨Q, hQ, hV⟩ := bind_eq_ok h
  unfold foldIndexed at hQ hV
  rw [elements_foldlM] at hV
  obtain ⟨ts, -, rfl⟩ := map_eq_ok hV
  -- the prelude adds no segments, and each data segment adds only its own contents
  refine foldlM_inv (fun w => ∀ md ∈ w.memories, ∀ seg ∈ md.segments, ∃ d ∈ raw.data,
      seg.data = d.init) _ ?_ P Q ?_ (mapError_eq_ok hQ)
  · rintro w ⟨d, i⟩ w' hmem hw hstep md' hmd' seg hseg
    rcases addData_segments hstep md' hmd' seg hseg with ⟨md, hmd, hseg⟩ | hdata
    · exact hw md hmd seg hseg
    · exact ⟨d, Array.mem_toList_iff.mp (List.fst_mem_of_mem_zipIdx hmem), hdata⟩
  · intro md hmd seg hseg
    rw [prelude_unwritten hP md hmd] at hseg
    simp at hseg

/-- A resolved module keeps the module it resolves. -/
theorem ofModule_raw {raw : Module} {v : View} (h : ofModule raw = .ok v) : v.raw = raw := by
  rw [ofModule_eq] at h
  obtain ⟨P, hP, h⟩ := bind_eq_ok h
  obtain ⟨Q, hQ, hV⟩ := bind_eq_ok h
  unfold foldIndexed at hQ hV
  rw [elements_foldlM] at hV
  obtain ⟨ts, -, rfl⟩ := map_eq_ok hV
  obtain ⟨hQP, -⟩ := data_frame _ 0 Q (mapError_eq_ok hQ)
  have hraw := prelude_raw hP
  rw [hQP]
  exact hraw

/-- Resolution adds a memory for each memory imported or defined, and no other. -/
theorem ofModule_memories_size {raw : Module} {v : View} (h : ofModule raw = .ok v) :
    v.memories.size ≤ raw.imports.size + raw.memories.size := by
  rw [ofModule_eq] at h
  obtain ⟨P, hP, h⟩ := bind_eq_ok h
  obtain ⟨Q, hQ, hV⟩ := bind_eq_ok h
  unfold foldIndexed at hQ hV
  rw [elements_foldlM] at hV
  obtain ⟨ts, -, rfl⟩ := map_eq_ok hV
  -- the data stage keeps the memories, but for their segments
  obtain ⟨-, hclear⟩ := data_frame _ 0 Q (mapError_eq_ok hQ)
  have hsize : Q.memories.size = P.memories.size := by simpa using congrArg Array.size hclear
  show Q.memories.size ≤ _
  rw [hsize]
  exact prelude_memories_size hP

/-! ## Resolving with the data section replaced -/

/-- A resolved module whose data section is replaced by segments at constant offsets, each into a
memory that exists, resolves to the same view with those segments as the contents of its
memories. -/
theorem ofModule_replaceData_const {raw : Module} {v : View} (h : ofModule raw = .ok v)
    (data : Array DataSegment) (dataCount : Option UInt32) (off : DataSegment → UInt64)
    (hdata : ∀ d ∈ data.toList, d.isActive →
      d.memIdx.toNat < v.memories.size ∧ ConstOffset d (off d)) :
    ofModule { raw with data, dataCount } =
      .ok { v with raw := { raw with data, dataCount },
                   memories := v.memories.mapIdx fun j md =>
                     { md with segments := placedSegments data.toList off j } } := by
  rw [ofModule_eq] at h ⊢
  obtain ⟨P, hP, h⟩ := bind_eq_ok h
  obtain ⟨Q, hQ, hV⟩ := bind_eq_ok h
  unfold foldIndexed at hQ hV ⊢
  -- the original data stage changed only the segments of the prelude's memories
  obtain ⟨hQP, hclear⟩ := data_frame _ 0 Q (mapError_eq_ok hQ)
  rw [elements_foldlM] at hV
  obtain ⟨ts, hts, rfl⟩ := map_eq_ok hV
  have hsize : Q.memories.size = P.memories.size := by simpa using congrArg Array.size hclear
  -- the new run: the same prelude, the segments at their offsets, then the same table writes
  obtain ⟨Q', hQ'⟩ : ∃ Q' : View, Q' = { P.withRaw { raw with data, dataCount } with
      memories := P.memories.mapIdx fun j md =>
        { md with segments := md.segments ++ placedSegments data.toList off j } } := ⟨_, rfl⟩
  have hnewData : List.foldlM (fun v (x, i) => addData v i x) (P.withRaw { raw with data, dataCount })
      data.toList.zipIdx = .ok Q' := by
    rw [hQ']
    refine constData_foldlM off data.toList 0 _ fun d hd ha => ?_
    obtain ⟨hlt, hz⟩ := hdata d hd ha
    exact ⟨hsize ▸ hlt, hz⟩
  have hnewElem : List.foldlM (fun v (x, i) => addElement v i x) Q' raw.elements.toList.zipIdx =
      .ok { Q' with tables := ts } := by
    have hgt : Q'.globals = Q.globals ∧ Q'.tables = Q.tables := by
      rw [hQ', hQP]
      exact ⟨rfl, rfl⟩
    rw [elements_foldlM, hgt.1, hgt.2, hts]
    rfl
  rw [prelude_replaceData, hP, map_ok, ok_bind, hnewData, mapError_ok, ok_bind, hnewElem, hQ', hQP]
  simp only [withRaw]
  congr 2
  exact segments_of_clear (prelude_unwritten hP) hclear _

/-- The same for segments written at offset zero. -/
theorem ofModule_replaceData {raw : Module} {v : View} (h : ofModule raw = .ok v)
    (data : Array DataSegment) (dataCount : Option UInt32)
    (hdata : ∀ d ∈ data.toList, d.isActive → d.memIdx.toNat < v.memories.size ∧ ZeroOffset d) :
    ofModule { raw with data, dataCount } =
      .ok { v with raw := { raw with data, dataCount },
                   memories := v.memories.mapIdx fun j md =>
                     { md with segments := zeroSegments data.toList j } } :=
  ofModule_replaceData_const h data dataCount (fun _ => 0) fun d hd ha =>
    ⟨(hdata d hd ha).1, (hdata d hd ha).2.const⟩

/-! ## The functions -/

/-- Imports add, in order, the types of the functions they import. -/
theorem foldl_addImport_sigs : ∀ (imps : List Import) (v : View),
    (imps.foldl addImport v).funcs.map (·.sig) =
      v.funcs.map (·.sig) ++ ({ imports := imps.toArray } : Module).importedFuncs
  | [], v => by simp [Module.importedFuncs]
  | imp :: imps, v => by
    rw [List.foldl_cons, foldl_addImport_sigs imps]
    cases hd : imp.desc <;> simp [addImport, hd, Module.importedFuncs]

/-- The prelude lists the imported functions, then the defined ones, with the module's types as
signatures. -/
theorem prelude_sigs {raw : Module} {v : View} (h : prelude raw = .ok v) :
    v.funcs.map (·.sig) = raw.importedFuncs ++ raw.funcs ∧ v.signatures = raw.types := by
  unfold prelude foldIndexed at h
  simp only [← Array.foldl_toList] at h
  obtain ⟨u, hu, rfl⟩ := mapError_bind_pure_eq_ok h
  -- tables, memories, globals and exports leave the functions and signatures alone
  let I : View → Prop := fun w => w.funcs.map (·.sig) = raw.importedFuncs ++ raw.funcs ∧
    w.signatures = raw.types
  refine foldl_inv I (fun _ _ hw => by exact hw) _ _
    (foldlM_inv I _ (fun w _ w' _ hw hstep => ?_) _ _ ?_ hu)
  · rw [addGlobal_frame hstep]
    exact hw
  refine foldl_inv I (fun _ _ hw => by exact hw) _ _ (foldl_inv I (fun _ _ hw => by exact hw) _ _ ?_)
  -- the defined functions come after the imported ones
  have hfuncs : ∀ (ts : List UInt32) (w : View),
      (ts.foldl (fun w t => { w with funcs := w.funcs.push ⟨t, false⟩ }) w).funcs.map (·.sig) =
        w.funcs.map (·.sig) ++ ts.toArray ∧
      (ts.foldl (fun w t => { w with funcs := w.funcs.push ⟨t, false⟩ }) w).signatures = w.signatures := by
    intro ts
    induction ts with
    | nil => simp
    | cons t ts ih =>
      intro w
      rw [List.foldl_cons, (ih _).1, (ih _).2]
      simp
  obtain ⟨hf, hs⟩ := hfuncs raw.funcs.toList (raw.imports.toList.foldl addImport { raw, signatures := raw.types })
  refine ⟨?_, hs.trans ?_⟩
  · rw [hf, foldl_addImport_sigs]
    simp only [Array.map_empty, Array.empty_append, Array.toArray_toList]
    rfl
  · exact foldl_inv (fun w => w.signatures = raw.types) (fun w imp hw => by
      unfold addImport; split <;> exact hw) _ _ rfl

/-- A resolved view gives every function the type its module gives it. -/
theorem ofModule_funcType {raw : Module} {v : View} (h : ofModule raw = .ok v) (f : UInt32) :
    v.funcType? f = raw.funcType? f := by
  rw [ofModule_eq] at h
  obtain ⟨P, hP, h⟩ := bind_eq_ok h
  obtain ⟨Q, hQ, hV⟩ := bind_eq_ok h
  unfold foldIndexed at hQ hV
  rw [elements_foldlM] at hV
  obtain ⟨ts, -, rfl⟩ := map_eq_ok hV
  obtain ⟨hQP, -⟩ := data_frame _ 0 Q (mapError_eq_ok hQ)
  obtain ⟨hsigs, htypes⟩ := prelude_sigs hP
  -- only the prelude sets the functions and signatures
  have hfuncs : Q.funcs = P.funcs := by rw [hQP]
  have hsignatures : Q.signatures = P.signatures := by rw [hQP]
  have hget : (Q.funcs[f.toNat]?).map (·.sig) = (raw.importedFuncs ++ raw.funcs)[f.toNat]? := by
    rw [hfuncs, ← hsigs, Array.getElem?_map]
  have hlhs : ({ Q with tables := ts } : View).funcType? f =
      ((Q.funcs[f.toNat]?).map (·.sig)).bind fun t => raw.types[t.toNat]? := by
    simp only [funcType?, hsignatures, htypes, Option.bind_map]
    rfl
  rw [hlhs, hget, Module.funcType?, Array.getElem?_append]

end WasmImage.View
