import WasmImage.Image.Build
import WasmImage.Proofs.Loops
import WasmImage.Proofs.Overlay

/-!
# Building images, and writing into them

A memory's image has its memory's label and initial size whatever segments it holds, and one
segment that covers it whole makes it that segment's bytes (`buildMemory_whole`). Sized writes
change only bytes, never a label or a length, nor the globals, tables or roles
(`Writes.sameShape`). Building never reads the log, and a view whose memories are replaced
builds to the same image but for the memory images (`build_replaceMemories`).
-/

namespace WasmImage

open Logged

/-! ## Bytes and arrays -/

theorem size_copySlice (src dest : ByteArray) (off : Nat) (h : off + src.size ≤ dest.size) :
    (src.copySlice 0 dest off src.size).size = dest.size := by
  simp only [ByteArray.copySlice, ByteArray.size, Array.size_append, Array.size_extract]
  simp only [ByteArray.size] at h
  omega

theorem copySlice_whole (src dest : ByteArray) (h : src.size = dest.size) :
    src.copySlice 0 dest 0 src.size = src := by
  apply ByteArray.ext
  have hs : src.data.size = src.size := rfl
  simp only [ByteArray.copySlice, Nat.zero_add, Nat.sub_zero, Nat.min_self, hs]
  rw [← hs, Array.extract_size, Array.extract_empty_of_stop_le_start (Nat.le_refl _)]
  simp
  omega

/-- Copying a whole array into another at `off` places its bytes there. -/
theorem copySlice_data (src dest : ByteArray) (off : Nat) :
    (src.copySlice 0 dest off src.size).data.toList = place dest.data.toList ⟨off, src.data.toList⟩ := by
  have hsrc : src.data.toList.length = src.size := Array.length_toList
  have hdest : dest.data.toList.length = dest.size := Array.length_toList
  have hmin : min src.size src.data.size = src.size := Nat.min_self _
  simp only [ByteArray.copySlice, place, Placed.stop, Array.toList_append, Array.toList_extract,
    List.extract_eq_take_drop, Nat.sub_zero, List.drop_zero, Nat.zero_add, hmin, hsrc]
  have hwhole : src.data.toList.take src.size = src.data.toList := List.take_of_length_le (by omega)
  have hrest : (dest.data.toList.drop (off + src.size)).take (dest.data.size - (off + src.size)) =
      dest.data.toList.drop (off + src.size) :=
    List.take_of_length_le (by rw [List.length_drop, hdest]; exact Nat.le_refl _)
  rw [hwhole, hrest, List.append_assoc]

theorem pop_push_last {α : Type} {xs : Array α} {n : Nat} (h : xs.size = n + 1) :
    xs.pop.push xs[n] = xs := by
  apply Array.ext
  · simp
    omega
  · intro i h₁ _
    rw [Array.getElem_push]
    split
    · simp
    · rename_i hi
      have : i = n := by simp at hi h₁; omega
      subst this
      rfl

namespace MemImage

@[simp] theorem zeroBytes_size (n : Nat) : (zeroBytes n).size = n := by
  fun_induction zeroBytes n with
  | case1 => rfl
  | case2 n half whole heven hhalf =>
    simp only [whole, half, ByteArray.size_append, hhalf]
    omega
  | case3 n half whole hodd hhalf =>
    simp only [whole, half, ByteArray.size_push, ByteArray.size_append, hhalf]
    omega

theorem zeroBytes_data (n : Nat) : (zeroBytes n).data.toList = List.replicate n 0 := by
  fun_induction zeroBytes n with
  | case1 => rfl
  | case2 n half whole heven hhalf =>
    simp only [whole, half, ByteArray.data_append, Array.toList_append, hhalf,
      List.replicate_append_replicate]
    congr 1
    omega
  | case3 n half whole hodd hhalf =>
    simp only [whole, half, ByteArray.data_push, Array.toList_push, ByteArray.data_append,
      Array.toList_append, hhalf, List.replicate_append_replicate]
    rw [← List.replicate_succ']
    congr 1
    omega

@[simp] theorem zeroed_len (label : String) (pages : Nat) :
    (zeroed label pages).len = pages * pageSize := by
  simp [zeroed, len]

theorem storeLE_len (m : MemImage) (addr n v : Nat) : (m.storeLE addr n v).len = m.len := by
  unfold storeLE len
  dsimp only
  -- every `set!` keeps the size
  generalize List.range n = is
  induction is generalizing m with
  | nil => rfl
  | cons i is ih =>
    rw [List.foldl_cons]
    exact (ih ⟨m.label, _⟩).trans (ByteArray.size_set! _ _ _)

end MemImage

/-! ## Sized writes -/

/-- A write of the image's interface: a little-endian number of 1, 2, 4 or 8 bytes at an
address. -/
inductive SizedWrite where
  | u8 (addr : UInt32) (x : UInt8)
  | u16 (addr : UInt32) (x : UInt16)
  | u32 (addr : UInt32) (x : UInt32)
  | u64 (addr : UInt32) (x : UInt64)

/-- The write, on one memory image. -/
def SizedWrite.apply : SizedWrite → MemImage → Except Fault MemImage
  | .u8 addr x, m => m.writeU8 addr x
  | .u16 addr x, m => m.writeU16 addr x
  | .u32 addr x, m => m.writeU32 addr x
  | .u64 addr x, m => m.writeU64 addr x

/-- The label and the length of a memory image. -/
def MemImage.shape (m : MemImage) : String × Nat := (m.label, m.len)

theorem SizedWrite.apply_stores {w : SizedWrite} {m m' : MemImage} (h : w.apply m = .ok m') :
    ∃ addr n v, m' = m.storeLE addr n v := by
  -- every width checks the bounds, then stores
  cases w <;>
  · obtain ⟨_, _, h⟩ := bind_eq_ok h
    injection h with h
    exact ⟨_, _, _, h.symm⟩

theorem SizedWrite.apply_shape {w : SizedWrite} {m m' : MemImage} (h : w.apply m = .ok m') :
    m'.shape = m.shape := by
  obtain ⟨addr, n, v, rfl⟩ := apply_stores h
  simp only [MemImage.shape, MemImage.storeLE_len]
  rfl

namespace Image

/-- One successful sized write into memory `id`. -/
inductive Write : Image → Image → Prop
  | mk {im im' : Image} (id : UInt32) (w : SizedWrite) :
      im.updateMemory id w.apply = .ok (.ok im') → Write im im'

/-- Images reached by successful sized writes, one after another. -/
inductive Writes : Image → Image → Prop
  | refl (im : Image) : Writes im im
  | step {im im₁ im₂ : Image} : Write im im₁ → Writes im₁ im₂ → Writes im im₂

/-- Images that differ at most in the bytes of their memories. -/
structure SameShape (im im' : Image) : Prop where
  memories : im'.memories.map MemImage.shape = im.memories.map MemImage.shape
  globals : im'.globals = im.globals
  tables : im'.tables = im.tables
  roles : im'.roles = im.roles

theorem SameShape.rfl' (im : Image) : SameShape im im := ⟨rfl, rfl, rfl, rfl⟩

theorem SameShape.trans {a b c : Image} (h₁ : SameShape a b) (h₂ : SameShape b c) :
    SameShape a c :=
  ⟨h₂.memories.trans h₁.memories, h₂.globals.trans h₁.globals, h₂.tables.trans h₁.tables,
    h₂.roles.trans h₁.roles⟩

theorem Write.sameShape {im im' : Image} (h : Write im im') : SameShape im im' := by
  obtain ⟨id, w, h⟩ := h
  unfold updateMemory withMemory memory? at h
  split at h
  · rename_i m hm
    injection h with h
    obtain ⟨m', hw, rfl⟩ := map_eq_ok h
    have hshape := SizedWrite.apply_shape hw
    refine ⟨?_, rfl, rfl, rfl⟩
    obtain ⟨hlt, rfl⟩ := Array.getElem?_eq_some_iff.mp hm
    simp only [Array.set!, Array.map_setIfInBounds, hshape]
    apply Array.ext
    · simp
    · intro j _ hj
      rw [Array.getElem_setIfInBounds hj]
      split <;> simp_all
  · cases h

theorem Writes.sameShape {im im' : Image} (h : Writes im im') : SameShape im im' := by
  induction h with
  | refl im => exact SameShape.rfl' im
  | step hw _ ih => exact hw.sameShape.trans ih

/-! ## Memory images -/

/-- A memory's image has its label and its initial size, when its segments are within 32-bit
sizes. -/
theorem buildMemory_shape {id : Nat} {md : View.MemoryData} {m : MemImage}
    (hsmall : ∀ seg ∈ md.segments, seg.data.size < 2 ^ 32) (h : buildMemory id md = .ok m) :
    m.shape = (memoryName id, md.initialPages.toNat * pageSize) ∧ md.initialPages.toNat ≤ maxPages := by
  unfold buildMemory at h
  dsimp only at h
  split at h
  · obtain ⟨_, h, -⟩ := bind_eq_ok h
    cases h
  · rename_i hpages
    obtain ⟨mem, hloop, h⟩ := bind_eq_ok h
    cases h
    refine ⟨?_, by omega⟩
    have hZ : md.initialPages.toNat * pageSize ≤ 2 ^ 32 := by
      have : md.initialPages.toNat ≤ 65536 := by simpa [maxPages] using Nat.le_of_not_gt hpages
      simp only [pageSize]
      omega
    -- every segment is copied inside the memory, which keeps its label and its length
    refine forIn'_range_invariant (fun _ mem => mem.shape = (memoryName id, md.initialPages.toNat * pageSize))
      ?_ (by simp [MemImage.shape, MemImage.zeroed, MemImage.len]) hloop
    intro pre i hi s r hs hr
    split at hr
    · obtain ⟨_, hr, -⟩ := bind_eq_ok hr
      cases hr
    · rename_i hfit
      injection hr with hr
      refine ⟨_, hr.symm, ?_⟩
      have hseg := hsmall _ (Array.getElem_mem (Membership.get_elem_helper hi rfl))
      simp only [MemImage.shape, Prod.mk.injEq] at hs ⊢
      simp only [MemImage.len] at hs hfit ⊢
      simp only [Bool.or_eq_true, decide_eq_true_eq, not_or, gt_iff_lt, Nat.not_lt,
        UInt64.toNat_add, UInt64.toNat_ofNat'] at hfit
      refine ⟨hs.1, ?_⟩
      rw [size_copySlice _ _ _ (by omega)]
      exact hs.2

/-- A memory whose one segment covers it whole, from offset zero, has that segment's bytes as its
image. -/
theorem buildMemory_whole (id : Nat) (md : View.MemoryData) {B : ByteArray}
    (hpages : md.initialPages.toNat ≤ maxPages) (hB : B.size = md.initialPages.toNat * pageSize) :
    buildMemory id { md with segments := #[⟨0, B⟩] } = .ok ⟨memoryName id, B⟩ := by
  unfold buildMemory
  simp only [Std.Legacy.Range.forIn'_eq_forIn'_range', Std.Legacy.Range.size]
  simp [Nat.not_lt.mpr hpages, MemImage.zeroed, MemImage.len, ← hB, UInt64.toNat_ofNat',
    copySlice_whole]
  -- the segment's end, taken modulo 2^64, never passes the memory's end
  rw [if_neg (by omega)]
  rfl

/-! ## Building never reads the log -/

/-- The memory images after memory `i`, from those before it. -/
def memoryStep (v : View) (ms : Array MemImage) (i : Nat) : Except Fault (Array MemImage) :=
  match v.memories[i]? with
  | some md => ms.push <$> buildMemory i md
  | none => .ok ms

theorem buildMemories_yields (v : View) :
    (buildMemories v).Yields ((List.range v.memories.size).foldlM (memoryStep v) #[]) := by
  unfold buildMemories
  rw [← bind_pure ((List.range v.memories.size).foldlM (memoryStep v) #[])]
  refine Yields.bind (yields_forIn'_range _ (memoryStep v) ?_ #[]) fun ms => yields_pure ms
  intro i hi ms
  have hlt : i < v.memories.size := Membership.get_elem_helper hi rfl
  have hstep : (ForInStep.yield <$> memoryStep v ms i) = (buildMemory i v.memories[i] >>= fun mem =>
      (Except.ok () >>= fun _ => .ok (.yield (ms.push mem)))) := by
    simp only [memoryStep, Array.getElem?_eq_getElem hlt]
    cases buildMemory i v.memories[i] <;> rfl
  rw [hstep]
  exact (yields_ofExcept _).bind fun mem => (yields_logDebug _ _ _).bind fun _ => yields_pure _

/-- The memory stage over the first `n` memories succeeds with one image per memory, each the
image of its memory. -/
theorem memoryStep_foldlM (v : View) : ∀ n, n ≤ v.memories.size → ∀ ms : Array MemImage,
    (List.range n).foldlM (memoryStep v) #[] = .ok ms ↔
      ms.size = n ∧ ∀ i (h : i < v.memories.size) (h' : i < ms.size),
        buildMemory i v.memories[i] = .ok ms[i]
  | 0, _, ms => by
    constructor
    · intro h
      cases h
      exact ⟨rfl, fun i _ h' => absurd h' (Nat.not_lt_zero i)⟩
    · rintro ⟨hsize, -⟩
      rw [Array.size_eq_zero_iff.mp hsize]
      rfl
  | n + 1, hn, ms => by
    have ih := memoryStep_foldlM v n (by omega)
    have hstep : ∀ acc : Array MemImage,
        memoryStep v acc n = acc.push <$> buildMemory n v.memories[n] := by
      intro acc
      simp only [memoryStep, Array.getElem?_eq_getElem hn]
    simp only [List.range_succ, List.foldlM_append, List.foldlM_cons, List.foldlM_nil, bind_pure]
    constructor
    · intro h
      obtain ⟨acc, hacc, h⟩ := bind_eq_ok h
      rw [hstep] at h
      obtain ⟨m, hm, rfl⟩ := map_eq_ok h
      obtain ⟨hsize, hall⟩ := (ih acc).mp hacc
      refine ⟨by simp [hsize], fun i h h' => ?_⟩
      rw [Array.getElem_push]
      split
      · exact hall i h _
      · have hi : i = n := by simp at h'; omega
        subst hi
        exact hm
    · rintro ⟨hsize, hall⟩
      -- the first `n` images come from the first `n` memories, the last from memory `n`
      have hpop : (List.range n).foldlM (memoryStep v) #[] = .ok ms.pop :=
        (ih ms.pop).mpr ⟨by simp [hsize], fun i h h' => by
          rw [Array.getElem_pop]
          exact hall i h _⟩
      rw [hpop, ok_bind, hstep, hall n hn (by omega), map_ok, pop_push_last hsize]

/-- Choosing the roles checks the ids asked for, then logs them: its outcome is the same from
every log. -/
theorem assignRoles_yields (v : View) (n : Nat) (c : RoleChoice) :
    (assignRoles v n c).Yields (assignRoles v n c).outcome := by
  apply Settled.yields
  unfold assignRoles
  dsimp only
  -- each role either throws or goes on to the next with its id; the last step logs them
  repeat' (first
    | intro _
    | apply Settled.bind
    | split
    | exact settled_pure _
    | exact settled_throw _)

/-- Building runs the memory stage, then chooses the roles; neither reads the log. -/
theorem build_yields (v : View) (c : RoleChoice) :
    (build v c).Yields (do
      let ms ← (List.range v.memories.size).foldlM (memoryStep v) #[]
      let roles ← (assignRoles v ms.size c).outcome
      pure { memories := ms, globals := knownGlobals v, tables := v.tables.map (·.funcElements),
             roles }) :=
  (buildMemories_yields v).bind fun ms =>
    (assignRoles_yields v ms.size c).bind fun _ => yields_pure _

/-- A build that succeeds made its memory images by the memory stage, and took the known globals
and the slots of the tables from the view. -/
theorem build_ok {v : View} {c : RoleChoice} {im : Image} (h : (build v c).outcome = .ok im) :
    ∃ ms, (List.range v.memories.size).foldlM (memoryStep v) #[] = .ok ms ∧ im.memories = ms ∧
      im.globals = knownGlobals v ∧ im.tables = v.tables.map (·.funcElements) := by
  rw [(build_yields v c).outcome] at h
  obtain ⟨ms, hms, h⟩ := bind_eq_ok h
  obtain ⟨roles, -, h⟩ := bind_eq_ok h
  cases h
  exact ⟨ms, hms, rfl, rfl, rfl⟩

/-- A view whose memories are replaced builds to the same image but for the memory images, when
its memory stage succeeds with as many. -/
theorem build_replaceMemories {v : View} {c : RoleChoice} {im : Image}
    (h : (build v c).outcome = .ok im) (r : Wasm.Module) (M : Array View.MemoryData) {ms : Array MemImage}
    (hms : (List.range M.size).foldlM (memoryStep { v with raw := r, memories := M }) #[] = .ok ms)
    (hsize : ms.size = im.memories.size) :
    (build { v with raw := r, memories := M } c).outcome = .ok { im with memories := ms } := by
  rw [(build_yields v c).outcome] at h
  obtain ⟨ms₀, hms₀, h⟩ := bind_eq_ok h
  obtain ⟨roles, hroles, h⟩ := bind_eq_ok h
  cases h
  -- the roles, globals and tables read nothing the replacement changes
  rw [(build_yields _ c).outcome]
  show (List.range M.size).foldlM _ #[] >>= (fun ms => (assignRoles v ms.size c).outcome >>= _) = _
  rw [hms, ok_bind, hsize, hroles]
  rfl

end Image

/-! ## The memory phase: segments over zeros -/

namespace View

/-- A segment fits a memory of `len` bytes when it ends within them, counted without wrapping. -/
def Segment.FitsIn (seg : Segment) (len : Nat) : Prop := seg.offset.toNat + seg.data.size ≤ len

/-- The segment's bytes, placed from its offset. -/
def Segment.placed (seg : Segment) : Placed UInt8 := ⟨seg.offset.toNat, seg.data.data.toList⟩

/-- The initial size of a memory in bytes. -/
def MemoryData.initialBytes (md : MemoryData) : Nat := md.initialPages.toNat * pageSize

/-- A memory fits a 32-bit address space, with every segment within its initial size. -/
def MemoryData.Fits (md : MemoryData) : Prop :=
  md.initialPages.toNat ≤ WasmImage.maxPages ∧ ∀ seg ∈ md.segments, seg.FitsIn md.initialBytes

end View

open View

/-- The image that memory `id` builds to: its label, and its initial bytes, each that of the last
segment covering it, or zero. -/
def MemImage.Overlays (m : MemImage) (id : Nat) (md : MemoryData) : Prop :=
  m.label = memoryName id ∧ m.bytes.data.toList =
    (List.range md.initialBytes).map (overlay 0 (md.segments.toList.map Segment.placed))

namespace Image

/-- The fault of memory `id` whose first misfit is a segment: invalid data, naming the first
segment past the end. -/
def SegmentMisfit (id : Nat) (md : MemoryData) (e : Fault) : Prop :=
  e.kind = .invalidData ∧ ∃ j, ∃ hj : j < md.segments.size,
    (∀ k (hk : k < j), md.segments[k].FitsIn md.initialBytes) ∧
      ¬ md.segments[j].FitsIn md.initialBytes ∧ e.path = [memoryName id, "segment", toString j]

/-- The fault of memory `id` when it does not fit: unsupported, for more pages than a 32-bit
address space holds, or else that of its first segment past the end. -/
def MisfitFault (id : Nat) (md : MemoryData) (e : Fault) : Prop :=
  e.phase = .build ∧
    if maxPages < md.initialPages.toNat then e.kind = .unsupported ∧ e.path = [memoryName id]
    else SegmentMisfit id md e

/-- The image of memory `id` after its first `k` segments are copied in, each of them fitting. -/
structure Copied (id : Nat) (md : MemoryData) (k : Nat) (mem : MemImage) : Prop where
  fits : ∀ j (hj : j < md.segments.size), j < k → md.segments[j].FitsIn md.initialBytes
  label : mem.label = memoryName id
  bytes : mem.bytes.data.toList =
    (List.range md.initialBytes).map (overlay 0 ((md.segments.toList.take k).map Segment.placed))

theorem Copied.len {id : Nat} {md : MemoryData} {k : Nat} {mem : MemImage}
    (h : Copied id md k mem) : mem.len = md.initialBytes := by
  have := congrArg List.length h.bytes
  rwa [Array.length_toList, List.length_map, List.length_range] at this

/-- Copying in the next segment, when it fits, extends the image by it. -/
theorem Copied.copy {id : Nat} {md : MemoryData} {i : Nat} {mem : MemImage} (hmem : Copied id md i mem)
    (hin : i < md.segments.size) (hfit : md.segments[i].FitsIn md.initialBytes) :
    Copied id md (i + 1) { mem with
      bytes := md.segments[i].data.copySlice 0 mem.bytes md.segments[i].offset.toNat md.segments[i].data.size } := by
  refine ⟨fun j hj hji => ?_, hmem.label, ?_⟩
  · rcases Nat.lt_succ_iff_lt_or_eq.mp hji with hji | rfl
    · exact hmem.fits j hj hji
    · exact hfit
  · show (md.segments[i].data.copySlice 0 mem.bytes _ _).data.toList = _
    rw [copySlice_data, hmem.bytes]
    rw [show (md.segments.toList.take (i + 1)).map Segment.placed =
        (md.segments.toList.take i).map Segment.placed ++ [md.segments[i].placed] by
      simp [List.take_add_one, hin]]
    exact place_map_overlay hfit

/-- The guard of a segment copy holds exactly for a segment past the end: the end, computed in 64
bits, cannot wrap once the offset lies within a 32-bit memory and the data is a slice of the
source, shorter than `2 ^ 63` bytes. -/
theorem misfit_guard (seg : Segment) {len : Nat} (hlen : len ≤ 2 ^ 32)
    (hsize : seg.data.size < 2 ^ 63) :
    (decide (seg.offset.toNat > len) || decide ((seg.offset + seg.data.size.toUInt64).toNat > len)) =
      true ↔ ¬ seg.FitsIn len := by
  have hoff := seg.offset.toNat_lt
  simp only [Bool.or_eq_true, decide_eq_true_eq, gt_iff_lt, UInt64.toNat_add, Nat.toUInt64_eq,
    UInt64.toNat_ofNat', Segment.FitsIn, Nat.not_le]
  rw [Nat.mod_eq_of_lt (show seg.data.size < 2 ^ 64 by omega)]
  omega

/-- A memory's image: built exactly when the memory fits, and then its segments laid over zeros
in order; otherwise the fault names the memory, and its first segment past the end. -/
theorem buildMemory_cases (id : Nat) (md : MemoryData)
    (hdata : ∀ seg ∈ md.segments, seg.data.size < 2 ^ 63) :
    (md.Fits ∧ ∃ m, buildMemory id md = .ok m ∧ m.Overlays id md) ∨
      (¬ md.Fits ∧ ∃ e, buildMemory id md = .error e ∧ MisfitFault id md e) := by
  generalize hr : buildMemory id md = r
  unfold buildMemory at hr
  dsimp only at hr
  split at hr
  · -- more pages than a 32-bit address space holds
    rename_i hpages
    subst hr
    refine .inr ⟨fun hfits => absurd hfits.1 (by simpa [maxPages] using hpages), _, rfl, rfl, ?_⟩
    rw [if_pos (by simpa [maxPages] using hpages)]
    exact ⟨rfl, rfl⟩
  · rename_i hpages
    have hL : md.initialBytes ≤ 2 ^ 32 := by
      simp only [MemoryData.initialBytes, pageSize]
      simp only [maxPages, gt_iff_lt, Nat.not_lt] at hpages
      omega
    obtain ⟨rx, hloop, hr⟩ := bind_outcome hr
    refine (forIn'_range_outcome (Copied id md) (fun e => e.phase = .build ∧ SegmentMisfit id md e)
      ?step ?init hloop).elim ?_ ?_
    case step =>
      -- one segment: copied in when it fits, else the fault names it
      intro i hi mem hmem
      have hin : i < md.segments.size := Membership.get_elem_helper hi rfl
      have hguard := misfit_guard md.segments[i] hL (hdata _ (Array.getElem_mem hin))
      rw [hmem.len]
      split
      · rename_i hbad
        exact .inr ⟨_, rfl, rfl, rfl, i, hin, fun k hk => hmem.fits k _ hk, hguard.mp hbad, rfl⟩
      · rename_i hgood
        have hfit : md.segments[i].FitsIn md.initialBytes := by
          by_contra h
          exact hgood (hguard.mpr h)
        exact .inl ⟨_, rfl, hmem.copy hin hfit⟩
    case init =>
      -- nothing copied yet: all zeros
      refine ⟨fun j _ hj => absurd hj (Nat.not_lt_zero j), rfl, ?_⟩
      simp [MemImage.zeroed, MemImage.zeroBytes_data, MemoryData.initialBytes]
    · -- every segment was copied in
      rintro ⟨t, rfl, ht⟩
      subst hr
      refine .inl ⟨⟨by simpa [maxPages] using hpages, fun seg hseg => ?_⟩, t, rfl, ht.label, ?_⟩
      · obtain ⟨j, hj, rfl⟩ := Array.mem_iff_getElem.mp hseg
        exact ht.fits j hj hj
      · rw [ht.bytes, List.take_of_length_le (by simp)]
    · -- a segment did not fit
      rintro ⟨e, rfl, hphase, hkind, j, hj, hbefore, hmisfit, hpath⟩
      subst hr
      refine .inr ⟨fun hfits => hmisfit (hfits.2 _ (Array.getElem_mem hj)), e, rfl, hphase, ?_⟩
      rw [if_neg (by simpa [maxPages] using hpages)]
      exact ⟨hkind, j, hj, hbefore, hmisfit, hpath⟩

/-- The memory phase over the first `k` memories: all of them fit and each has its image, or the
first that does not fit gives the fault. -/
theorem memoryStep_cases (v : View)
    (hdata : ∀ md ∈ v.memories, ∀ seg ∈ md.segments, seg.data.size < 2 ^ 63) :
    ∀ k, k ≤ v.memories.size →
      ((∀ j (hj : j < v.memories.size), j < k → v.memories[j].Fits) ∧
        ∃ ms, (List.range k).foldlM (memoryStep v) #[] = .ok ms ∧ ms.size = k ∧
          ∀ i (h : i < ms.size) (h' : i < v.memories.size), ms[i].Overlays i v.memories[i]) ∨
      (∃ i, ∃ h : i < v.memories.size, i < k ∧ (∀ j (hj : j < i), v.memories[j].Fits) ∧
        ¬ v.memories[i].Fits ∧
        ∃ e, (List.range k).foldlM (memoryStep v) #[] = .error e ∧ MisfitFault i v.memories[i] e)
  | 0, _ => .inl ⟨fun j _ hj => absurd hj (Nat.not_lt_zero j), #[], rfl, rfl,
      fun i h => absurd h (Nat.not_lt_zero i)⟩
  | k + 1, hk => by
    have hstep : ∀ acc : Array MemImage,
        memoryStep v acc k = acc.push <$> buildMemory k v.memories[k] := by
      intro acc
      simp only [memoryStep, Array.getElem?_eq_getElem hk]
    simp only [List.range_succ, List.foldlM_append, List.foldlM_cons, List.foldlM_nil, bind_pure]
    rcases memoryStep_cases v hdata k (by omega) with
      ⟨hfits, ms, hms, hsize, himages⟩ | ⟨i, hi, hik, hbefore, hmisfit, e, he, hfault⟩
    · rw [hms, ok_bind, hstep]
      rcases buildMemory_cases k v.memories[k] (hdata _ (Array.getElem_mem hk)) with
        ⟨hfit, m, hm, hover⟩ | ⟨hmisfit, e, he, hfault⟩
      · -- memory `k` fits too: its image goes last
        rw [hm, map_ok]
        refine .inl ⟨fun j hj hjk => ?_, ms.push m, rfl, by simp [hsize], fun i h h' => ?_⟩
        · rcases Nat.lt_succ_iff_lt_or_eq.mp hjk with hjk | rfl
          · exact hfits j hj hjk
          · exact hfit
        · rw [Array.getElem_push]
          split
          · exact himages i _ h'
          · have hi : i = k := by simp at h; omega
            subst hi
            exact hover
      · -- memory `k` is the first that does not fit
        rw [he]
        exact .inr ⟨k, hk, Nat.lt_succ_self k, fun j hj => hfits j _ hj, hmisfit, e, rfl, hfault⟩
    · -- an earlier memory did not fit, and the fault stands
      rw [he]
      exact .inr ⟨i, hi, by omega, hbefore, hmisfit, e, rfl, hfault⟩

/-- The memory phase of building an image: it succeeds exactly when every memory fits, and then
gives each memory the image of its segments laid over zeros in order, which are the memories of
the image when it is built; otherwise it fails, and the build with it, with the fault of the
first memory that does not fit (unsupported for too many pages, else invalid data at its first
segment past the end). Data slices are shorter than `2 ^ 63` bytes, as in the source. -/
theorem build_memory_phase (v : View) (c : RoleChoice)
    (hdata : ∀ md ∈ v.memories, ∀ seg ∈ md.segments, seg.data.size < 2 ^ 63) :
    ((∀ md ∈ v.memories, md.Fits) ∧ ∃ ms, (buildMemories v).outcome = .ok ms ∧
        ms.size = v.memories.size ∧
        (∀ i (h : i < ms.size) (h' : i < v.memories.size), ms[i].Overlays i v.memories[i]) ∧
        ∀ im, (build v c).outcome = .ok im → im.memories = ms) ∨
      (∃ i, ∃ h : i < v.memories.size, (∀ j (hj : j < i), v.memories[j].Fits) ∧
        ¬ v.memories[i].Fits ∧ ∃ e, (buildMemories v).outcome = .error e ∧
          (build v c).outcome = .error e ∧ MisfitFault i v.memories[i] e) := by
  have hbuild := (build_yields v c).outcome
  rw [(buildMemories_yields v).outcome]
  rcases memoryStep_cases v hdata _ (Nat.le_refl _) with
    ⟨hfits, ms, hms, hsize, himages⟩ | ⟨i, hi, -, hbefore, hmisfit, e, he, hfault⟩
  · refine .inl ⟨fun md hmd => ?_, ms, hms, hsize, himages, fun im him => ?_⟩
    · obtain ⟨j, hj, rfl⟩ := Array.mem_iff_getElem.mp hmd
      exact hfits j hj hj
    · -- the roles are chosen after the memories, which the image keeps
      obtain ⟨ms', hms', hmem, -⟩ := build_ok him
      rw [hms] at hms'
      cases hms'
      exact hmem
  · exact .inr ⟨i, hi, hbefore, hmisfit, e, he, by rw [hbuild, he]; rfl, hfault⟩

/-- One page holding `1 2 3` from 0, its middle byte overwritten by a later `9`. -/
def overlappingSegments : View :=
  { raw := {}, signatures := #[],
    memories := #[{ initialPages := 1, maxPages := none, imported := false, memory64 := false,
                    segments := #[⟨0, ⟨#[1, 2, 3]⟩⟩, ⟨1, ⟨#[9]⟩⟩] }] }

theorem build_memory_phase_overlapping_segments :
    (∀ md ∈ overlappingSegments.memories, ∀ seg ∈ md.segments, seg.data.size < 2 ^ 63) ∧
    (((∀ md ∈ overlappingSegments.memories, md.Fits) ∧
        ∃ ms, (buildMemories overlappingSegments).outcome = .ok ms ∧
        ms.size = overlappingSegments.memories.size ∧
        (∀ i (h : i < ms.size) (h' : i < overlappingSegments.memories.size),
          ms[i].Overlays i overlappingSegments.memories[i]) ∧
        ∀ im, (build overlappingSegments {}).outcome = .ok im → im.memories = ms) ∨
      (∃ i, ∃ h : i < overlappingSegments.memories.size,
        (∀ j (hj : j < i), overlappingSegments.memories[j].Fits) ∧
        ¬ overlappingSegments.memories[i].Fits ∧
        ∃ e, (buildMemories overlappingSegments).outcome = .error e ∧
          (build overlappingSegments {}).outcome = .error e ∧
          MisfitFault i overlappingSegments.memories[i] e)) :=
  have hdata : ∀ md ∈ overlappingSegments.memories, ∀ seg ∈ md.segments, seg.data.size < 2 ^ 63 := by
    decide
  ⟨hdata, build_memory_phase overlappingSegments {} hdata⟩

end Image

end WasmImage
