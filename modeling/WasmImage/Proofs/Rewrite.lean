import WasmImage.Proofs.Regroup
import WasmImage.Proofs.WriteBack

/-!
# Rewriting the memories' segments

The segment lists of a parsed view's memories can be replaced at will (`View.withSegments`).
Writing the view back is refused only when a segment of a 32-bit memory starts past the last
32-bit address, or when, with a data count section, a passive segment would move to another
index. When it is written and its data section fits the 32-bit sizes of the binary format, the
module parses back to the view with exactly those segments, each memory's in order, and all else
as the parsed module had it; with a data count section every passive segment keeps its index and
the count is the number of segments written (`View.withSegments_faithful`).

A memory's index is written as 32 bits, so this rests on a module that reads back having fewer
than 2^32 memories, imported ones included (`Module.WF.memories_lt`).
-/

namespace WasmImage

/-! ## Fewer than 2^32 memories -/

namespace Wasm

open Writer Encode

/-- A vector whose entries each take at least `k` bytes takes at least `k` bytes per entry. -/
theorem mul_size_le_vector {α : Type} {w : ByteArray → α → ByteArray} (hw : Appends w) {k : Nat}
    (hk : ∀ x, k ≤ (written w x).length) (xs : Array α) :
    k * xs.size ≤ (vector ByteArray.empty xs w).size := by
  have hflat : ∀ ys : List α, k * ys.length ≤ (ys.map (written w)).flatten.length := by
    intro ys
    induction ys with
    | nil => simp
    | cons y ys ih =>
      have hy := hk y
      simp only [List.length_cons, List.map_cons, List.flatten_cons, List.length_append,
        Nat.mul_succ]
      omega
  have hsize : (vector ByteArray.empty xs w).size =
      (vector ByteArray.empty xs w).data.toList.length := Array.length_toList.symm
  have hxs := hflat xs.toList
  rw [Array.length_toList] at hxs
  rw [hsize, vector_data hw]
  simp only [ByteArray.data_empty, Array.toList_empty, List.nil_append, List.length_append]
  omega

theorem two_le_written_importEntry (i : Import) : 2 ≤ (written importEntry i).length := by
  have hmodule := Leb128.length_unsigned_pos i.module.toUTF8.size.toUInt32.toNat
  simp only [written, importEntry_data, name_data, ByteArray.data_empty, Array.toList_empty,
    List.nil_append, List.length_append, List.length_cons]
  omega

theorem two_le_written_limits (l : Limits) : 2 ≤ (written limits l).length := by
  have hmin := Leb128.length_unsigned_pos l.min.toNat
  simp only [written, limits_data, ByteArray.data_empty, Array.toList_empty, List.nil_append,
    List.length_cons, List.length_append]
  omega

/-- A module that reads back has fewer than 2^32 memories, imported ones included: each import
and each memory takes two bytes at least of a section that 32 bits measure. -/
theorem Module.WF.memories_lt {m : Module} (h : m.WF) :
    m.imports.size + m.memories.size < 2 ^ 32 := by
  have himports : 2 * m.imports.size < 2 ^ 32 :=
    Nat.lt_of_le_of_lt (mul_size_le_vector appends_importEntry two_le_written_importEntry _)
      (h.vectors .imports).size
  have hmemories : 2 * m.memories.size < 2 ^ 32 :=
    Nat.lt_of_le_of_lt (mul_size_le_vector appends_limits two_le_written_limits _)
      (h.vectors .memories).size
  omega

end Wasm

namespace View

open Wasm

/-! ## Segments at constant offsets read back -/

/-- The offset a data segment's expression gives in a view that knows no global. -/
def constOffsetOf (d : DataSegment) : UInt64 :=
  match ({ raw := {}, signatures := #[] } : View).offset (d.offset.getD ByteArray.empty) [] with
  | .ok o => o
  | .error _ => 0

theorem constOffsetOf_eq {d : DataSegment} {o : UInt64} (h : ConstOffset d o) :
    constOffsetOf d = o := by
  simp [constOffsetOf, h _ _]

section SegmentAt

variable {mem : Nat} {memory64 : Bool} {seg : Segment}

theorem segmentAt_constOffset (hfit : memory64 = false → seg.offset ≤ 0xffffffff) :
    ConstOffset (segmentAt mem memory64 seg) seg.offset := by
  intro w path
  cases memory64
  · exact offset_constI32 w (hfit rfl) path
  · exact offset_constI64 w _ path

theorem segmentAt_memIdx (hmem : mem < 2 ^ 32) : (segmentAt mem memory64 seg).memIdx.toNat = mem :=
  Writer.toNat_toUInt32_of_lt hmem

theorem segmentAt_wf (hdata : seg.data.size < 2 ^ 32) : (segmentAt mem memory64 seg).WF where
  flags := by
    unfold segmentAt
    split
    · exact (by decide : (0 : UInt32) ≤ 2)
    · exact (by decide : (2 : UInt32) ≤ 2)
  memIdx := by
    unfold segmentAt
    split
    · rename_i h
      subst h
      intro
      rfl
    · intro h
      exact absurd rfl h
  offset := by
    refine ⟨segmentAt_isActive mem memory64 seg, ?_⟩
    cases memory64
    · exact isConstExpr_constI32 _
    · exact isConstExpr_constI64 _
  init := hdata

end SegmentAt

/-! ## The view with its segments replaced -/

/-- The view with the segments of each memory `j` replaced by `segs j`. -/
def withSegments (v : View) (segs : Nat → Array Segment) : View :=
  { v with memories := v.memories.mapIdx fun j md => { md with segments := segs j } }

section WithSegments

variable (v : View) (segs : Nat → Array Segment)

@[simp] theorem withSegments_raw : (v.withSegments segs).raw = v.raw := rfl

@[simp] theorem size_withSegments : (v.withSegments segs).memories.size = v.memories.size := by
  simp [withSegments]

theorem withSegments_getElem? (j : Nat) :
    (v.withSegments segs).memories[j]? =
      v.memories[j]?.map fun md => { md with segments := segs j } := by
  simp [withSegments, Array.getElem?_mapIdx]

theorem withData_withSegments (D : Array DataSegment) :
    (v.withSegments segs).withData D = v.withData D := rfl

end WithSegments

/-- Every memory of a view written without refusal has offsets that fit. -/
theorem offsetsFit_of_written {w : View} {js : List Nat}
    (hjs : js.Perm (List.range w.memories.size)) (hw : ∀ j ∈ js, ∃ l, w.dataSegments j = .ok l)
    {j : Nat} {md : MemoryData} (hj : w.memories[j]? = some md) : md.OffsetsFit := by
  have hlt : j < w.memories.size := (Array.getElem?_eq_some_iff.mp hj).1
  obtain ⟨l, hl⟩ := hw j (hjs.mem_iff.mpr (List.mem_range.mpr hlt))
  exact offsetsFit_of_dataSegments hj hl

section Regrouped

variable {v : View} {segs : Nat → Array Segment} {js : List Nat} {D : Array DataSegment}

/-- An active segment of a regrouped section is one memory's segment: it names that memory and
is written at a constant offset. -/
theorem Regrouped.placed (hreg : Regrouped v.memories.size (v.withSegments segs).segmentsOf
      v.raw.data.toList js D)
    (hfits : ∀ (j : Nat) (md : MemoryData), (v.withSegments segs).memories[j]? = some md →
      md.OffsetsFit)
    (hn : v.memories.size < 2 ^ 32) {d : DataSegment} (hd : d ∈ D) (ha : d.isActive = true) :
    d.memIdx.toNat < v.memories.size ∧ ConstOffset d (constOffsetOf d) := by
  obtain ⟨j, hj, hdj⟩ := hreg.active_mem hd ha
  obtain ⟨md, hmd, seg, hseg, rfl⟩ := mem_segmentsOf.mp hdj
  have hlt : j < v.memories.size := hreg.bound j hj
  have hconst : ConstOffset (segmentAt j md.memory64 seg) seg.offset :=
    segmentAt_constOffset fun h64 => hfits j md hmd h64 seg hseg
  rw [segmentAt_memIdx (Nat.lt_trans hlt hn), constOffsetOf_eq hconst]
  exact ⟨hlt, hconst⟩

/-- Every segment of a regrouped section reads back: the passive ones were read, and each active
one holds contents that the data section, fitting 32 bits, measures. -/
theorem Regrouped.wf {raw : Module} (hwf : raw.WF) (hraw : v.raw = raw)
    (hreg : Regrouped v.memories.size (v.withSegments segs).segmentsOf v.raw.data.toList js D)
    (hfit : (v.withData D).DataFits) : ∀ d ∈ D, d.WF := by
  intro d hd
  cases ha : d.isActive
  · have hmem := hreg.passive_mem hd ha
    rw [hraw] at hmem
    exact (hwf.vectors .data).entries d (Array.mem_toList_iff.mp hmem)
  · obtain ⟨j, -, hdj⟩ := hreg.active_mem hd ha
    obtain ⟨md, -, seg, -, rfl⟩ := mem_segmentsOf.mp hdj
    exact segmentAt_wf (Nat.lt_of_le_of_lt (init_le_vector hd) hfit)

/-- Resolving a regrouped section gives each memory its segments back, in order. -/
theorem Regrouped.placedSegments (hreg : Regrouped v.memories.size (v.withSegments segs).segmentsOf
      v.raw.data.toList js D)
    (hjs : js.Perm (List.range v.memories.size))
    (hfits : ∀ (j : Nat) (md : MemoryData), (v.withSegments segs).memories[j]? = some md →
      md.OffsetsFit)
    (hn : v.memories.size < 2 ^ 32) {j : Nat} (hj : j < v.memories.size) :
    placedSegments D.toList constOffsetOf j = segs j := by
  have hidx : ∀ j' < v.memories.size, ∀ d ∈ (v.withSegments segs).segmentsOf j',
      d.memIdx.toNat = j' := by
    intro j' hj' d hd
    obtain ⟨md, -, seg, -, rfl⟩ := mem_segmentsOf.mp hd
    exact segmentAt_memIdx (Nat.lt_trans hj' hn)
  have hfit := hfits j _ (by rw [withSegments_getElem?, Array.getElem?_eq_getElem hj]; rfl)
  unfold View.placedSegments
  rw [hreg.filter_memIdx hjs hidx hj]
  unfold segmentsOf
  rw [withSegments_getElem?, Array.getElem?_eq_getElem hj]
  simp only [Option.map_some, Option.getD_some, List.map_map]
  -- each segment is written at its offset, and that offset reads back
  have hback : ∀ seg ∈ (segs j).toList,
      ((fun d => (⟨constOffsetOf d, d.init⟩ : Segment)) ∘ segmentAt j v.memories[j].memory64) seg =
        seg := by
    intro seg hseg
    have hconst : ConstOffset (segmentAt j v.memories[j].memory64 seg) seg.offset :=
      segmentAt_constOffset fun h64 => hfit h64 seg (Array.mem_toList_iff.mp hseg)
    simp only [Function.comp, constOffsetOf_eq hconst]
    rfl
  rw [List.map_congr_left hback]
  simp

end Regrouped

/-! ## The faithful rewrite -/

/-- The module written from a parsed view with its segments replaced, when its data section fits,
parses back to that view. -/
theorem parse_withSegments {b : ByteArray} {v : View} (hparse : parse b = .ok v)
    {segs : Nat → Array Segment} {js : List Nat} {D : Array DataSegment}
    (hjs : js.Perm (List.range v.memories.size))
    (hreg : Regrouped v.memories.size (v.withSegments segs).segmentsOf v.raw.data.toList js D)
    (hwritten : ∀ j ∈ js, ∃ l, (v.withSegments segs).dataSegments j = .ok l)
    (hfit : (v.withData D).DataFits) :
    parse (v.withData D).encode = .ok { v.withSegments segs with raw := v.withData D } := by
  obtain ⟨raw, hdecode, hres⟩ := parse_eq_ok hparse
  have hwf := Module.wf_of_decode hdecode
  have hraw : v.raw = raw := ofModule_raw hres
  have hn : v.memories.size < 2 ^ 32 :=
    Nat.lt_of_le_of_lt (ofModule_memories_size hres) hwf.memories_lt
  have hfits : ∀ (j : Nat) (md : MemoryData), (v.withSegments segs).memories[j]? = some md →
      md.OffsetsFit := fun _ _ => offsetsFit_of_written (by simpa using hjs) hwritten
  -- the module written reads back as itself
  have hwith : v.withData D =
      { raw with data := D, dataCount := raw.dataCount.map fun _ => D.size.toUInt32 } := by
    rw [withData, hraw]
  have hdecode' : Module.decode (v.withData D).encode = .ok (v.withData D) := by
    rw [hwith] at hfit ⊢
    exact Module.decode_encode (Module.WF.replaceData hwf (hreg.wf hwf hraw (hwith ▸ hfit)) _ hfit)
  -- and resolves with each memory's segments placed back
  have hdata : ∀ d ∈ D.toList, d.isActive →
      d.memIdx.toNat < v.memories.size ∧ ConstOffset d (constOffsetOf d) := by
    intro d hd ha
    exact hreg.placed hfits hn (Array.mem_toList_iff.mp hd) ha
  unfold View.parse
  rw [hdecode']
  show ofModule _ = _
  rw [hwith, ofModule_replaceData_const hres D _ constOffsetOf hdata]
  congr 2
  apply Array.ext
  · simp [withSegments]
  · intro j hj _
    have hjv : j < v.memories.size := by simpa using hj
    simp only [withSegments, Array.getElem_mapIdx]
    rw [hreg.placedSegments hjs hfits hn hjv]

/-- Replacing the segments of a parsed view's memories and writing it back is faithful. Writing
is refused only when a segment of a 32-bit memory starts past the last 32-bit address or when,
with a data count section, a passive segment would land at another index. When it is written and
its data section fits the 32-bit sizes of the binary format, the module keeps everything of the
parsed one but its data section, parses back to the view with exactly the segments given, each
memory's in order, and, with a data count section, keeps every passive segment at its index and
counts the segments it has. -/
theorem withSegments_faithful {b : ByteArray} {v : View} (hparse : parse b = .ok v)
    (segs : Nat → Array Segment) :
    (∀ e, (v.withSegments segs).toModule = .error e →
      (v.withSegments segs).OffsetOutOfRange ∨ (v.withSegments segs).MovesPassive) ∧
    ∀ m, (v.withSegments segs).toModule = .ok m → m.DataFits →
      parse m.encode = .ok { v.withSegments segs with raw := m } ∧
        m = v.withData m.data ∧ m.data.size < 2 ^ 32 ∧
        (v.raw.dataCount.isSome → KeepsPassive v.raw.data.toList m.data) := by
  rcases toModule_outcome (v.withSegments segs) with
    ⟨D, js, hok, hjs, hreg, hwritten, hkeeps⟩ | ⟨e, herr, hbad⟩
  · refine ⟨fun e he => ?_, fun m hm hfit => ?_⟩
    · rw [hok] at he
      cases he
    rw [hok] at hm
    cases hm
    rw [withData_withSegments] at hfit ⊢
    simp only [size_withSegments, withSegments_raw] at hjs hreg hkeeps
    exact ⟨parse_withSegments hparse hjs hreg hwritten hfit, rfl,
      Nat.lt_of_le_of_lt (size_le_vector D) hfit, hkeeps⟩
  · exact ⟨fun _ _ => hbad, fun m hm => by rw [herr] at hm; cases hm⟩

/-- A module with one memory of one page, a data count section, and one passive segment. -/
def onePassiveSegment : ByteArray :=
  ⟨#[0x00, 0x61, 0x73, 0x6d, 0x01, 0x00, 0x00, 0x00, 0x05, 0x03, 0x01, 0x00, 0x01, 0x0c, 0x01,
    0x01, 0x0b, 0x05, 0x01, 0x01, 0x02, 0x68, 0x69]⟩

/-- Three bytes at offset 16 in every memory. -/
def threeBytesAt16 (_ : Nat) : Array Segment := #[⟨16, ⟨#[1, 2, 3]⟩⟩]

theorem withSegments_faithful_one_passive_segment :
    ∃ v, parse onePassiveSegment = .ok v ∧
      (∀ e, (v.withSegments threeBytesAt16).toModule = .error e →
        (v.withSegments threeBytesAt16).OffsetOutOfRange ∨
          (v.withSegments threeBytesAt16).MovesPassive) ∧
      ∀ m, (v.withSegments threeBytesAt16).toModule = .ok m → m.DataFits →
        parse m.encode = .ok { v.withSegments threeBytesAt16 with raw := m } ∧
          m = v.withData m.data ∧ m.data.size < 2 ^ 32 ∧
          (v.raw.dataCount.isSome → KeepsPassive v.raw.data.toList m.data) := by
  have hparse : parse onePassiveSegment = .ok
      { raw := { memories := #[⟨1, none, false, false⟩], dataCount := some 1,
                 data := #[⟨1, 0, none, ⟨#[0x68, 0x69]⟩⟩] },
        signatures := #[], memories := #[⟨1, none, false, false, #[]⟩] } := by
    cbv
  exact ⟨_, hparse, withSegments_faithful hparse threeBytesAt16⟩

end View

end WasmImage
