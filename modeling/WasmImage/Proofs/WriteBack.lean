import WasmImage.Proofs.Build
import WasmImage.Proofs.Regroup
import WasmImage.Proofs.RoundTrip

/-!
# Writing an image back

Writing an image back gives every memory of the view one segment at offset zero holding its image's
bytes (`withImage_yields`). The module written from such a view keeps every passive segment and
holds, for every memory, exactly one active segment: its bytes at offset zero
(`toModule_single`). When that data section fits the 32-bit sizes of the binary format, the
module reads back, resolves to the view written back, and builds to the image that was written
back.
-/

namespace WasmImage

open Wasm Logged

/-! ## The size of a data section -/

namespace Wasm

open Writer Encode

/-- The contents of the data section fit the 32-bit size that the binary format gives them. -/
def Module.DataFits (m : Module) : Prop :=
  (vector ByteArray.empty m.data dataSegment).size < 2 ^ 32

theorem init_le_written (d : DataSegment) : d.init.size ≤ (written dataSegment d).length := by
  have hinit : d.init.size = d.init.data.toList.length := Array.length_toList.symm
  simp only [written, dataSegment_data, ByteArray.data_empty, Array.toList_empty, List.nil_append,
    List.length_append]
  omega

theorem written_dataSegment_pos (d : DataSegment) : 0 < (written dataSegment d).length := by
  simp only [written, dataSegment_data, ByteArray.data_empty, Array.toList_empty, List.nil_append,
    List.length_append]
  have := Leb128.length_unsigned_pos d.flags.toNat
  omega

/-- The vector's bytes: its count, then its entries. -/
theorem vector_size (xs : Array DataSegment) :
    (vector ByteArray.empty xs dataSegment).size =
      (Leb128.unsigned xs.size.toUInt32.toNat).length +
        (xs.toList.map (written dataSegment)).flatten.length := by
  have hsize : (vector ByteArray.empty xs dataSegment).size =
      (vector ByteArray.empty xs dataSegment).data.toList.length := Array.length_toList.symm
  rw [hsize, vector_data appends_dataSegment]
  simp

/-- Every segment takes a byte at least. -/
theorem size_le_vector (xs : Array DataSegment) :
    xs.size ≤ (vector ByteArray.empty xs dataSegment).size := by
  have hflat : ∀ ds : List DataSegment, ds.length ≤ (ds.map (written dataSegment)).flatten.length := by
    intro ds
    induction ds with
    | nil => simp
    | cons d ds ih =>
      simp only [List.length_cons, List.map_cons, List.flatten_cons, List.length_append]
      have := written_dataSegment_pos d
      omega
  rw [vector_size]
  have := hflat xs.toList
  simp only [Array.length_toList] at this
  omega

/-- A segment's contents are within the vector's bytes. -/
theorem init_le_vector {xs : Array DataSegment} {d : DataSegment} (hd : d ∈ xs) :
    d.init.size ≤ (vector ByteArray.empty xs dataSegment).size := by
  have hsub := List.sublist_flatten_of_mem
    (List.mem_map_of_mem (f := written dataSegment) (Array.mem_toList_iff.mpr hd))
  have := hsub.length_le
  have := init_le_written d
  rw [vector_size]
  omega

/-- A module that reads back still does with its data section replaced by segments that read
back and fit. -/
theorem Module.WF.replaceData {raw : Module} (h : raw.WF) {D : Array DataSegment}
    (hD : ∀ d ∈ D, d.WF) (dataCount : Option UInt32)
    (hfit : ({ raw with data := D, dataCount } : Module).DataFits) :
    ({ raw with data := D, dataCount } : Module).WF := by
  refine ⟨⟨fun s => ?_, h.customs⟩, h.counts⟩
  by_cases hs : s = .data
  · subst hs
    exact ⟨hD, Nat.lt_of_le_of_lt (size_le_vector D) hfit, hfit⟩
  · have hsame : s.get { raw with data := D, dataCount } = s.get raw := by
      cases s <;> first | rfl | exact absurd rfl hs
    rw [hsame]
    exact h.vectors s

end Wasm

namespace View

/-! ## Memory images into the view -/

/-- The memories of `v`, the first `k` of which hold the bytes of `im`'s memory images, each as
one segment at offset zero. -/
def writtenBack (v : View) (im : Image) (k : Nat) : Array MemoryData :=
  v.memories.mapIdx fun j md =>
    if h : j < k ∧ j < im.memories.size then
      { md with segments := #[⟨0, im.memories[j].bytes⟩] }
    else md

/-- Memory `i` written back, after the check that the view has it. -/
def writeBackStep (im : Image) (w : View) (i : Nat) : Except Misuse View :=
  if i ≥ w.memories.size then .error (.notInModule i.toUInt32)
  else match im.memories[i]? with
    | some mem => .ok { w with memories := w.memories.modify i fun md =>
        { md with segments := #[⟨0, mem.bytes⟩] } }
    | none => .ok w

theorem writeBack_foldlM (v : View) (im : Image) (hsize : im.memories.size ≤ v.memories.size) :
    ∀ k, k ≤ im.memories.size →
      (List.range k).foldlM (writeBackStep im) v = .ok { v with memories := v.writtenBack im k }
  | 0, _ => by
    have hnone : v.writtenBack im 0 = v.memories := by
      apply Array.ext
      · simp [writtenBack]
      · intro j _ _
        simp [writtenBack]
    rw [hnone]
    rfl
  | k + 1, hk => by
    simp only [List.range_succ, List.foldlM_append, List.foldlM_cons, List.foldlM_nil, bind_pure]
    rw [writeBack_foldlM v im hsize k (by omega), ok_bind]
    have hk' : k < im.memories.size := by omega
    have hfits : ¬ k ≥ (v.writtenBack im k).size := by simp [writtenBack]; omega
    simp only [writeBackStep, hfits, if_false, Array.getElem?_eq_getElem hk']
    congr 2
    apply Array.ext
    · simp [writtenBack]
    · intro j hj _
      simp only [writtenBack, Array.getElem_modify, Array.getElem_mapIdx]
      -- memory `k` is the one this step writes; the others keep what they had
      by_cases hjk : k = j
      · subst hjk
        simp [hk']
      · have hlt : (j < k ∧ j < im.memories.size) ↔ (j < k + 1 ∧ j < im.memories.size) := by
          omega
        simp only [hjk, if_false, hlt]

/-- Writing back an image whose memories the view all has succeeds, whatever the log, and gives
each of them one segment at offset zero with its image's bytes. -/
theorem withImage_yields (v : View) (im : Image) (hsize : im.memories.size ≤ v.memories.size) :
    (v.withImage im).Yields (.ok { v with memories := v.writtenBack im im.memories.size }) := by
  unfold withImage
  rw [← writeBack_foldlM v im hsize _ (Nat.le_refl _), ← bind_pure ((List.range _).foldlM _ v)]
  refine Yields.bind (yields_forIn'_range _ (writeBackStep im) ?_ v) fun w => yields_pure w
  intro i hi w
  have hlt : i < im.memories.size := Membership.get_elem_helper hi rfl
  by_cases hge : i ≥ w.memories.size
  · simp only [writeBackStep, hge, if_true]
    exact (yields_throw _).bind fun _ => (yields_logDebug _ _ _).bind fun _ => yields_pure _
  · simp only [writeBackStep, hge, if_false, Array.getElem?_eq_getElem hlt]
    exact (yields_logDebug _ _ _).bind fun _ => yields_pure _

/-! ## The data section written from a view -/

/-- The active data segment that writes `data` at offset zero of memory `mem`. -/
def zeroSegment (mem : Nat) (memory64 : Bool) (data : ByteArray) : DataSegment :=
  { flags := if mem = 0 then 0 else 2, memIdx := mem.toUInt32,
    offset := some (if memory64 then constI64 0 else constI32 0), init := data }

theorem isConstExpr_zero {e : ByteArray} (he : e = constI32 0 ∨ e = constI64 0) :
    IsConstExpr e := by
  rcases he with rfl | rfl
  · exact isConstExpr_constI32 0
  · exact isConstExpr_constI64 0

section ZeroSegment

variable (mem : Nat) (memory64 : Bool) (data : ByteArray)

theorem zeroSegment_isActive : (zeroSegment mem memory64 data).isActive = true := by
  unfold zeroSegment DataSegment.isActive
  split <;> rfl

theorem zeroSegment_zeroOffset : ZeroOffset (zeroSegment mem memory64 data) := by
  unfold zeroSegment ZeroOffset
  cases memory64
  · exact .inl rfl
  · exact .inr rfl

theorem zeroSegment_memIdx {mem : Nat} (hmem : mem < 2 ^ 32) :
    (zeroSegment mem memory64 data).memIdx.toNat = mem :=
  Writer.toNat_toUInt32_of_lt hmem

theorem zeroSegment_wf (hdata : data.size < 2 ^ 32) : (zeroSegment mem memory64 data).WF where
  flags := by
    unfold zeroSegment
    split
    · exact (by decide : (0 : UInt32) ≤ 2)
    · exact (by decide : (2 : UInt32) ≤ 2)
  memIdx := by
    unfold zeroSegment
    split
    · rename_i h
      subst h
      intro
      rfl
    · intro h
      exact absurd rfl h
  offset := by
    refine ⟨zeroSegment_isActive mem memory64 data, isConstExpr_zero ?_⟩
    cases memory64
    · exact .inl rfl
    · exact .inr rfl
  init := hdata

end ZeroSegment

theorem dataSegments_single {v : View} {j : Nat} (hj : j < v.memories.size) {B : ByteArray}
    (hseg : v.memories[j].segments = #[⟨0, B⟩]) :
    v.dataSegments j = .ok [zeroSegment j v.memories[j].memory64 B] := by
  unfold dataSegments
  simp [Array.getElem?_eq_getElem hj, hseg]
  cases v.memories[j].memory64 <;> rfl

/-- A data section written so far: the memories `js` emitted, each once and each as its one
active segment, in order; and passive segments, each one of `seen`. -/
structure Emitted (n : Nat) (S : Nat → DataSegment) (seen : List DataSegment) (js : List Nat)
    (data : Array DataSegment) : Prop where
  nodup : js.Nodup
  bound : ∀ j ∈ js, j < n
  active : data.toList.filter (·.isActive) = js.map S
  passive : ∀ d ∈ data, d.isActive = false → d ∈ seen

section Emitted

variable {n : Nat} {S : Nat → DataSegment} {seen : List DataSegment} {js : List Nat}
  {data : Array DataSegment}

/-- A data section regrouped from memories that each write the one segment `S j`. -/
theorem Regrouped.emitted {S' : Nat → List DataSegment} (h : Regrouped n S' seen js data)
    (hS : ∀ j ∈ js, S' j = [S j]) : Emitted n S seen js data where
  nodup := h.nodup
  bound := h.bound
  active := by
    rw [h.active, List.map_congr_left hS, ← List.flatMap_def, ← List.map_eq_flatMap]
  passive := fun _ hd hp => h.passive_mem hd hp

/-! Once every memory is emitted -/

theorem Emitted.count_le (h : Emitted n S seen js data) (hjs : js.Perm (List.range n)) :
    n ≤ data.size := by
  have hlen := congrArg List.length h.active
  rw [List.length_map, hjs.length_eq, List.length_range] at hlen
  have := List.length_filter_le (·.isActive) data.toList
  simp only [Array.length_toList] at this
  omega

theorem Emitted.active_mem (h : Emitted n S seen js data) {d : DataSegment} (hd : d ∈ data)
    (ha : d.isActive = true) : ∃ j ∈ js, d = S j := by
  have hmem : d ∈ data.toList.filter (·.isActive) :=
    List.mem_filter.mpr ⟨Array.mem_toList_iff.mpr hd, ha⟩
  rw [h.active] at hmem
  obtain ⟨j, hj, rfl⟩ := List.mem_map.mp hmem
  exact ⟨j, hj, rfl⟩

/-- Memory `j` has exactly one active segment, `S j`, when the segments name their memories. -/
theorem Emitted.filter_memIdx (h : Emitted n S seen js data) (hjs : js.Perm (List.range n))
    (hidx : ∀ j < n, (S j).memIdx.toNat = j) {j : Nat} (hj : j < n) :
    data.toList.filter (fun d => d.isActive && d.memIdx.toNat == j) = [S j] := by
  have hsplit : data.toList.filter (fun d => d.isActive && d.memIdx.toNat == j) =
      (data.toList.filter (·.isActive)).filter (fun d => d.memIdx.toNat == j) := by
    rw [List.filter_filter]
    congr 1
    funext d
    exact Bool.and_comm _ _
  rw [hsplit, h.active, List.filter_map]
  -- among the emitted memories, only `j` has its segment in memory `j`
  have hone : js.filter ((fun d => d.memIdx.toNat == j) ∘ S) = [j] := by
    have hperm : (js.filter ((fun d => d.memIdx.toNat == j) ∘ S)).Perm [j] := by
      refine (List.perm_ext_iff_of_nodup (h.nodup.filter _) (List.pairwise_singleton _ j)).mpr
        fun j' => ?_
      simp only [List.mem_filter, Function.comp, beq_iff_eq, List.mem_singleton]
      constructor
      · rintro ⟨hj', rfl⟩
        exact (hidx j' (h.bound j' hj')).symm
      · intro hj'
        rw [hj']
        exact ⟨hjs.mem_iff.mpr (List.mem_range.mpr hj), hidx j hj⟩
    exact List.perm_singleton.mp hperm
  rw [hone]
  rfl

end Emitted

/-- Writing the module of a view whose every memory becomes one active segment `S j`: every
memory is emitted once, and every passive segment is one of the decoded module's. -/
theorem toModule_single {v : View} {S : Nat → DataSegment}
    (hS : ∀ j < v.memories.size, v.dataSegments j = .ok [S j]) {m : Module}
    (h : v.toModule = .ok m) :
    ∃ D : Array DataSegment,
      m = { v.raw with data := D, dataCount := v.raw.dataCount.map fun _ => D.size.toUInt32 } ∧
      ∃ js, js.Perm (List.range v.memories.size) ∧ Emitted v.memories.size S v.raw.data.toList js D := by
  rcases toModule_outcome v with ⟨D, js, hok, hjs, hreg, -, -⟩ | ⟨e, herr, -⟩
  · rw [hok] at h
    cases h
    -- each memory the data section names regroups to its one segment
    have hone : ∀ j ∈ js, v.segmentsOf j = [S j] := fun j hj =>
      (dataSegments_eq_ok (hS j (List.mem_range.mp (hjs.mem_iff.mp hj)))).symm
    exact ⟨D, rfl, js, hjs, hreg.emitted hone⟩
  · rw [herr] at h
    cases h

/-! ## The view written back reads back -/

/-- The segment that memory `j` of `v` becomes once `im` is written back. -/
def writtenSegment (v : View) (im : Image) (j : Nat) : DataSegment :=
  zeroSegment j ((v.memories[j]?.map (·.memory64)).getD false)
    ((im.memories[j]?.map (·.bytes)).getD ByteArray.empty)

theorem writtenBack_size (v : View) (im : Image) (k : Nat) :
    (v.writtenBack im k).size = v.memories.size := by
  simp [writtenBack]

theorem writtenBack_getElem {v : View} {im : Image} {k j : Nat} (hj : j < v.memories.size)
    (hk : j < k) (him : j < im.memories.size) :
    getElem (v.writtenBack im k) j (by simpa [writtenBack_size] using hj) =
      { v.memories[j] with segments := #[⟨0, im.memories[j].bytes⟩] } := by
  simp [writtenBack, hk, him]

theorem writtenBack_dataSegments {v : View} {im : Image} (hsize : im.memories.size = v.memories.size) :
    ∀ j < ({ v with memories := v.writtenBack im im.memories.size } : View).memories.size,
      ({ v with memories := v.writtenBack im im.memories.size } : View).dataSegments j =
        .ok [writtenSegment v im j] := by
  intro j hj
  have hjv : j < v.memories.size := by simpa [writtenBack_size] using hj
  have hji : j < im.memories.size := by omega
  have hmd : (({ v with memories := v.writtenBack im im.memories.size } : View).memories[j]) =
      { v.memories[j] with segments := #[⟨0, im.memories[j].bytes⟩] } :=
    writtenBack_getElem hjv hji hji
  rw [dataSegments_single hj (by rw [hmd]), hmd]
  simp [writtenSegment, Array.getElem?_eq_getElem hjv, Array.getElem?_eq_getElem hji]

/-- The module written from a view written back reads back, when its data section fits, and
resolves to that view. -/
theorem parse_writtenBack {raw : Module} {v : View} (hres : ofModule raw = .ok v) (hwf : raw.WF)
    {im : Image} (hsize : im.memories.size = v.memories.size) {m : Module}
    (hm : ({ v with memories := v.writtenBack im im.memories.size } : View).toModule = .ok m)
    (hfit : m.DataFits) :
    View.parse m.encode = .ok { v with raw := m, memories := v.writtenBack im im.memories.size } := by
  have hraw : v.raw = raw := ofModule_raw hres
  obtain ⟨D, hmD, js, hjs, hem⟩ := toModule_single (writtenBack_dataSegments hsize) hm
  simp only [writtenBack_size, hraw] at hmD hjs hem
  subst hmD
  -- the data section holds a segment for every memory, and fits: fewer than 2^32 memories
  have hn : v.memories.size < 2 ^ 32 :=
    Nat.lt_of_le_of_lt (hem.count_le hjs) (Nat.lt_of_le_of_lt (size_le_vector D) hfit)
  have hidx : ∀ j < v.memories.size, (writtenSegment v im j).memIdx.toNat = j :=
    fun j hj => zeroSegment_memIdx _ _ (Nat.lt_trans hj hn)
  -- every segment reads back: the decoded passive ones, and one at offset zero per memory
  have hDwf : ∀ d ∈ D, d.WF := by
    intro d hd
    cases ha : d.isActive
    · exact (hwf.vectors .data).entries d (Array.mem_toList_iff.mp (hem.passive d hd ha))
    · obtain ⟨j, -, rfl⟩ := hem.active_mem hd ha
      exact zeroSegment_wf _ _ _ (Nat.lt_of_le_of_lt (init_le_vector hd) hfit)
  have hdecode := Module.decode_encode (Module.WF.replaceData hwf hDwf _ hfit)
  -- it resolves as the decoded module did, with the memories' segments replaced
  have hdata : ∀ d ∈ D.toList, d.isActive → d.memIdx.toNat < v.memories.size ∧ ZeroOffset d := by
    intro d hd ha
    obtain ⟨j, hj, rfl⟩ := hem.active_mem (Array.mem_toList_iff.mp hd) ha
    have hjn := hem.bound j hj
    exact ⟨(hidx j hjn).symm ▸ hjn, zeroSegment_zeroOffset _ _ _⟩
  unfold View.parse
  rw [hdecode]
  show ofModule _ = _
  rw [ofModule_replaceData hres D _ hdata]
  congr 2
  apply Array.ext
  · simp [writtenBack_size]
  · intro j hj _
    have hjv : j < v.memories.size := by simpa using hj
    have hji : j < im.memories.size := by omega
    rw [writtenBack_getElem hjv hji hji, Array.getElem_mapIdx]
    have hzero : zeroSegments D.toList j = #[⟨0, im.memories[j].bytes⟩] := by
      unfold zeroSegments
      rw [hem.filter_memIdx hjs hidx hjv]
      simp [writtenSegment, zeroSegment, Array.getElem?_eq_getElem hji]
    rw [hzero]

end View

/-! ## The view written back builds to the image written back -/

namespace Image

open View

theorem build_memories {v : View} {c : RoleChoice} {im : Image}
    (h : (build v c).outcome = .ok im) :
    (List.range v.memories.size).foldlM (memoryStep v) #[] = .ok im.memories := by
  rw [(build_yields v c).outcome] at h
  obtain ⟨ms, hms, h⟩ := bind_eq_ok h
  obtain ⟨roles, -, h⟩ := bind_eq_ok h
  cases h
  exact hms

/-- Writing back an image of the same shape as the one a view builds to, then building again,
gives that image back, roles, globals and tables as the view gives them. -/
theorem build_writtenBack {v : View} {c : RoleChoice} {im im' : Image}
    (hbuild : (build v c).outcome = .ok im)
    (hsmall : ∀ md ∈ v.memories, ∀ seg ∈ md.segments, seg.data.size < 2 ^ 32)
    (hshape : im'.memories.map MemImage.shape = im.memories.map MemImage.shape) (r : Module) :
    (build { v with raw := r, memories := v.writtenBack im' im'.memories.size } c).outcome =
      .ok { im with memories := im'.memories } := by
  obtain ⟨hcount, hmems⟩ :=
    (memoryStep_foldlM v _ (Nat.le_refl _) im.memories).mp (build_memories hbuild)
  have hsize : im'.memories.size = im.memories.size := by
    simpa using congrArg Array.size hshape
  refine build_replaceMemories hbuild r _ ?_ hsize
  refine (memoryStep_foldlM _ _ (Nat.le_refl _) im'.memories).mpr ⟨by simp [writtenBack_size]; omega, ?_⟩
  intro i hi hi'
  have hiv : i < v.memories.size := by simpa [writtenBack_size] using hi
  have him : i < im.memories.size := by omega
  -- memory `i` was built to the label and size that the written image still has
  obtain ⟨hshape₀, hpages⟩ := buildMemory_shape (hsmall _ (Array.getElem_mem hiv))
    (hmems i hiv him)
  have hshape' : im'.memories[i].shape = im.memories[i].shape := by
    have := congrArg (·[i]?) hshape
    simpa [hi', him] using this
  rw [hshape₀] at hshape'
  simp only [MemImage.shape, Prod.mk.injEq, MemImage.len] at hshape'
  show buildMemory i (v.writtenBack im' im'.memories.size)[i] = _
  rw [writtenBack_getElem hiv hi' hi', buildMemory_whole i v.memories[i] hpages hshape'.2,
    ← hshape'.1]

end Image

/-! ## The round trip -/

namespace View

open Image

theorem parse_eq_ok {b : ByteArray} {v : View} (h : parse b = .ok v) :
    ∃ raw, Module.decode b = .ok raw ∧ ofModule raw = .ok v := by
  unfold parse at h
  split at h
  · exact ⟨_, ‹_›, h⟩
  · cases h

/-- The segments of a parsed module's memories come from its data section, so they are within
32-bit sizes. -/
theorem segments_small {raw : Module} {v : View} (hres : ofModule raw = .ok v) (hwf : raw.WF) :
    ∀ md ∈ v.memories, ∀ seg ∈ md.segments, seg.data.size < 2 ^ 32 := by
  intro md hmd seg hseg
  obtain ⟨d, hd, hdata⟩ := ofModule_segments hres md hmd seg hseg
  rw [hdata]
  exact ((hwf.vectors .data).entries d hd).init

/-- Build the image of a parsed module, write into its memories, and write it back: the module
written back, when its data section fits the 32-bit sizes of the binary format, parses and builds
again to the image written, with the same roles, globals and tables. -/
theorem withImage_round_trip {b : ByteArray} {v : View} {choice : RoleChoice} {im im' : Image}
    (hparse : parse b = .ok v) (hbuild : (build v choice).outcome = .ok im)
    (hwrites : Writes im im') :
    ∃ v', (v.withImage im').outcome = .ok v' ∧
      ∀ m, v'.toModule = .ok m → m.DataFits →
        ∃ v'' im'', parse m.encode = .ok v'' ∧ (build v'' choice).outcome = .ok im'' ∧
          im''.memories = im'.memories ∧ im''.globals = im'.globals ∧ im''.tables = im'.tables ∧
          im''.roles = im'.roles := by
  obtain ⟨raw, hdecode, hres⟩ := parse_eq_ok hparse
  have hwf := Module.wf_of_decode hdecode
  have hsame := hwrites.sameShape
  -- one memory image per memory, and the writes keep them so
  have hcount : im.memories.size = v.memories.size :=
    ((memoryStep_foldlM v _ (Nat.le_refl _) _).mp (build_memories hbuild)).1
  have hsize : im'.memories.size = v.memories.size := by
    have := congrArg Array.size hsame.memories
    simp only [Array.size_map] at this
    omega
  refine ⟨_, (withImage_yields v im' (Nat.le_of_eq hsize)).outcome, fun m hm hfit => ?_⟩
  exact ⟨_, _, parse_writtenBack hres hwf hsize hm hfit,
    build_writtenBack hbuild (segments_small hres hwf) hsame.memories m, rfl, hsame.globals.symm,
    hsame.tables.symm, hsame.roles.symm⟩

/-- A module with one memory of one page. -/
def onePageMemory : ByteArray :=
  ⟨#[0x00, 0x61, 0x73, 0x6d, 0x01, 0x00, 0x00, 0x00, 0x05, 0x03, 0x01, 0x00, 0x01]⟩

/-- The page of `onePageMemory`, built zeroed and then given the byte 42 at address 0, written back
and parsed again. -/
theorem withImage_round_trip_one_page_written :
    ∃ v im im', parse onePageMemory = .ok v ∧ (build v {}).outcome = .ok im ∧ Writes im im' ∧
      ∃ v', (v.withImage im').outcome = .ok v' ∧
        ∀ m, v'.toModule = .ok m → m.DataFits →
          ∃ v'' im'', parse m.encode = .ok v'' ∧ (build v'' {}).outcome = .ok im'' ∧
            im''.memories = im'.memories ∧ im''.globals = im'.globals ∧ im''.tables = im'.tables ∧
            im''.roles = im'.roles := by
  let v : View :=
    { raw := { memories := #[⟨1, none, false, false⟩] }, memories := #[⟨1, none, false, false, #[]⟩],
      signatures := #[] }
  let im : Image := { memories := #[MemImage.zeroed "memory0" 1], roles := { mainHeap := some 0 } }
  have hparse : parse onePageMemory = .ok v := by
    cbv
  -- the page is built without evaluating its 65536 zero bytes
  have hmem : buildMemory 0 ⟨1, none, false, false, #[]⟩ = .ok (MemImage.zeroed "memory0" 1) := by
    unfold buildMemory
    simp only [Std.Legacy.Range.forIn'_eq_forIn'_range', Std.Legacy.Range.size]
    simp [maxPages]
    rfl
  have hbuild : (build v {}).outcome = .ok im := by
    have hms := (memoryStep_foldlM v v.memories.size (Nat.le_refl _) #[MemImage.zeroed "memory0" 1]).mpr
      ⟨rfl, fun i h h' => by
        have hi : i = 0 := by simpa using h'
        subst hi
        exact hmem⟩
    have hroles : (assignRoles v 1 {}).outcome = .ok { mainHeap := some 0 } := by
      cbv
    rw [(build_yields _ _).outcome, hms, ok_bind, List.size_toArray, List.length_singleton, hroles,
      ok_bind]
    simp only [im, v, knownGlobals, List.range_zero, List.foldr_nil, Array.size_empty, Array.map_empty]
    rfl
  have hwrite : im.updateMemory 0 (SizedWrite.u8 0 42).apply =
      .ok (.ok { im with memories := #[(MemImage.zeroed "memory0" 1).storeLE 0 1 42] }) := by
    simp [im, Image.updateMemory, Image.withMemory, Image.memory?, SizedWrite.apply,
      MemImage.writeU8, MemImage.check, MemImage.canRead, pageSize]
  have hwrites : Writes im _ := .step (.mk 0 (.u8 0 42) hwrite) (.refl _)
  exact ⟨v, im, _, hparse, hbuild, hwrites, withImage_round_trip hparse hbuild hwrites⟩

end View

end WasmImage
