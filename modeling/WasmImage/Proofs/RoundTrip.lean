import WasmImage.Proofs.Sections

/-!
# Round trip of a module

The encoder writes the header, then the sections in the canonical order, leaving out the vector
sections that have no entries, and then every custom section. A module whose sections read back
and that declares as many functions as it has bodies (`Module.WF`) is read back from what the
encoder writes (`Module.decode_encode`), and every module the decoder returns is such a module
(`Module.wf_of_decode`). Together: whatever the decoder accepts, it accepts again once encoded,
and it gives the same module.
-/

namespace WasmImage.Wasm

open Reader Writer Decode

/-- A module that the encoder writes so that it reads back. -/
structure Module.WF (m : Module) : Prop extends m.SectionsWF where
  counts : m.funcs.size = m.code.size

/-! ## What the encoder writes -/

/-- A section that 32 bits can measure: its id, its size, its contents. -/
theorem section_empty_data (id : UInt8) {c : ByteArray} (h : c.size < 2 ^ 32) :
    (Encode.section_ ByteArray.empty id c).data.toList =
      id :: (Leb128.unsigned c.data.toList.length ++ c.data.toList) := by
  rw [Encode.section_data, toNat_toUInt32_of_lt h]
  simp

namespace VecSection

/-- What the encoder writes for the section's entries `xs`; nothing when there are none. -/
def bytes (s : VecSection) (xs : Array s.Entry) : List UInt8 :=
  if xs.isEmpty then []
  else (Encode.section_ ByteArray.empty s.id (Encode.vector ByteArray.empty xs s.write)).data.toList

/-- The bytes of a vector section read back as one section, where the order allows it. -/
theorem steps (s : VecSection) (m : Module) {last : Nat} {xs : Array s.Entry}
    (hwf : VectorWF s.WF s.write xs) (hfresh : s.get m = #[]) (hlast : last < s.rank) :
    ∃ r ≤ s.rank, Steps m last (s.bytes xs) (s.set m xs) r := by
  unfold bytes
  split
  · next hx =>
    obtain rfl : xs = #[] := Array.isEmpty_iff.mp hx
    refine ⟨last, Nat.le_of_lt hlast, ?_⟩
    rw [← hfresh, set_get]
    exact .done m last
  · have hc : ReadsAll (sectionContents s.id m)
        (Encode.vector ByteArray.empty xs s.write).data.toList (s.set m xs) := by
      rw [sectionContents_id, hfresh]
      have hv := vector_reads s.appends_write xs hwf.count fun x hx => s.entry_reads x (hwf.entries x hx)
      have hend : Reads (pure (s.set m (#[] ++ xs)) : Step Module) [] (s.set m xs) := by
        rw [Array.empty_append]
        exact reads_pure _
      exact hv.readsAll.bind_last hend
    rw [section_empty_data s.id hwf.size]
    exact ⟨s.rank, Nat.le_refl _, .single (nextSection_reads_ranked hlast (by simpa using hwf.size) hc)⟩

end VecSection

/-- What the encoder writes for the start or the data count section. -/
def indexBytes (id : UInt8) : Option UInt32 → List UInt8
  | some v => (Encode.section_ ByteArray.empty id (u32 ByteArray.empty v)).data.toList
  | none => []

/-- The bytes of a section holding one index read back as one section, where the order allows
it; `set v` is the module with the index `v`. -/
theorem index_steps {m : Module} {last : Nat} {id : UInt8} (set : Option UInt32 → Module)
    (v : Option UInt32) (hnone : set none = m)
    (hc : ∀ x, ReadsAll (sectionContents id m) (Leb128.unsigned x.toNat) (set (some x)))
    (hlast : last < sectionRank id) :
    ∃ r ≤ sectionRank id, Steps m last (indexBytes id v) (set v) r := by
  cases v with
  | none => exact ⟨last, Nat.le_of_lt hlast, hnone ▸ .done m last⟩
  | some x =>
    have hlen : (Leb128.unsigned x.toNat).length < 2 ^ 32 :=
      Nat.lt_of_le_of_lt
        (Leb128.length_unsigned_le (show 0 < 5 by decide) (Nat.lt_of_lt_of_le x.toNat_lt (by decide)))
        (by decide)
    have hsize : (u32 ByteArray.empty x).size < 2 ^ 32 := by
      simpa [← ByteArray.size_data, ← Array.length_toList] using hlen
    rw [indexBytes, section_empty_data id hsize]
    refine ⟨sectionRank id, Nat.le_refl _, .single ?_⟩
    simpa using nextSection_reads_ranked hlast hlen (hc x)

/-- The sections the encoder writes before the custom ones: the vector sections, and the start
and data count sections that hold one index. -/
inductive Slot
  | vec (s : VecSection)
  | start
  | dataCount
  deriving DecidableEq

namespace Slot

def id : Slot → UInt8
  | vec s => s.id
  | start => 8
  | dataCount => 12

def rank (k : Slot) : Nat := sectionRank k.id

/-- The module `dst` with the slot's field taken from `src`. -/
def copy : Slot → Module → Module → Module
  | vec s, src, dst => s.set dst (s.get src)
  | start, src, dst => { dst with start := src.start }
  | dataCount, src, dst => { dst with dataCount := src.dataCount }

/-- The slot's field of `m` holds nothing. -/
def Empty : Slot → Module → Prop
  | vec s, m => s.get m = #[]
  | start, m => m.start = none
  | dataCount, m => m.dataCount = none

/-- What the encoder writes for the slot's field of `m`. -/
def bytes : Slot → Module → List UInt8
  | vec s, m => s.bytes (s.get m)
  | start, m => indexBytes 8 m.start
  | dataCount, m => indexBytes 12 m.dataCount

/-- The order in which the encoder writes the slots. -/
def canonical : List Slot :=
  [vec .types, vec .imports, vec .funcs, vec .tables, vec .memories, vec .globals, vec .exports,
    start, vec .elements, dataCount, vec .code, vec .data]

theorem rank_pos : ∀ k : Slot, 0 < k.rank
  | vec s => s.rank_pos
  | start => by decide
  | dataCount => by decide

theorem canonical_ranks : canonical.Pairwise fun k k' => k.rank < k'.rank := by
  decide

theorem empty_empty (k : Slot) : k.Empty {} := by
  cases k with
  | vec s => cases s <;> rfl
  | start => rfl
  | dataCount => rfl

/-- Filling one slot leaves the others as they were. -/
theorem empty_copy {k k' : Slot} (h : k ≠ k') {src dst : Module} (he : k'.Empty dst) :
    k'.Empty (k.copy src dst) := by
  cases k <;> cases k' <;> simp_all [copy, Empty, VecSection.get_set_of_ne]

/-- Filling every slot in the canonical order gives the module back, all but its custom
sections. -/
theorem canonical_copy (m : Module) :
    canonical.foldl (fun d k => k.copy m d) {} = { m with customs := #[] } := by
  cases m
  rfl

/-- The bytes of one slot read back as at most one section, where the order allows it. -/
theorem steps (k : Slot) {src dst : Module} {last : Nat} (h : src.SectionsWF) (he : k.Empty dst)
    (hlast : last < k.rank) : ∃ r ≤ k.rank, Steps dst last (k.bytes src) (k.copy src dst) r := by
  cases k with
  | vec s => exact s.steps dst (h.vectors s) he hlast
  | start =>
    refine index_steps (fun v => { dst with start := v }) src.start (by rw [← he]) (fun x => ?_) hlast
    exact ((rd_u32_reads x).bind_last (reads_pure ({ dst with start := some x } : Module))).readsAll
  | dataCount =>
    refine index_steps (fun v => { dst with dataCount := v }) src.dataCount (by rw [← he])
      (fun x => ?_) hlast
    exact ((rd_u32_reads x).bind_last (reads_pure ({ dst with dataCount := some x } : Module))).readsAll

/-- Slots of increasing rank, all empty and ranked after `last`, read back one after another. -/
theorem steps_list {src : Module} (h : src.SectionsWF) :
    ∀ (ks : List Slot) (dst : Module) (last : Nat), ks.Pairwise (fun k k' => k.rank < k'.rank) →
      (∀ k ∈ ks, last < k.rank ∧ k.Empty dst) →
        ∃ r, Steps dst last (ks.flatMap (·.bytes src)) (ks.foldl (fun d k => k.copy src d) dst) r
  | [], dst, last, _, _ => ⟨last, .done dst last⟩
  | k :: ks, dst, last, hp, hk => by
    obtain ⟨hlast, he⟩ := hk k List.mem_cons_self
    obtain ⟨r, hr, hfirst⟩ := k.steps h he hlast
    -- the slots after `k` are ranked after it, so after `r`, and filling `k` left them empty
    have hrest : ∀ k' ∈ ks, r < k'.rank ∧ k'.Empty (k.copy src dst) := by
      intro k' hk'
      have hlt : k.rank < k'.rank := List.rel_of_pairwise_cons hp hk'
      have hne : k ≠ k' := by
        rintro rfl
        exact Nat.lt_irrefl _ hlt
      exact ⟨Nat.lt_of_le_of_lt hr hlt, empty_copy hne (hk k' (List.mem_cons_of_mem _ hk')).2⟩
    obtain ⟨r', hnext⟩ := steps_list h ks (k.copy src dst) r (List.Pairwise.of_cons hp) hrest
    exact ⟨r', by simpa using hfirst.append hnext⟩

end Slot

/-- The custom sections, one after another, each read back where it stands. -/
theorem customs_steps (last : Nat) : ∀ (cs : List CustomSection) (m : Module), (∀ c ∈ cs, c.WF) →
    Steps m last (cs.map (written Encode.custom)).flatten
      { m with customs := m.customs ++ cs.toArray } last
  | [], m, _ => by simpa using Steps.done m last
  | c :: cs, m, h => by
    have hc : c.WF := h c List.mem_cons_self
    have hcontents : ReadsAll (sectionContents 0 m)
        (Writer.name ByteArray.empty c.name ++ c.data).data.toList
        { m with customs := m.customs.push c } := by
      have hend : Reads (pure { m with customs :=
          (m.customs.push ⟨c.name, c.data.data.toList.toByteArray⟩) } : Step Module) []
          { m with customs := m.customs.push c } := by
        simpa using reads_pure _
      have hlist : (Writer.name ByteArray.empty c.name ++ c.data).data.toList =
          written Writer.name c.name ++ c.data.data.toList := by
        simp [written]
      rw [hlist]
      exact ReadsAll.bind (name_reads c.name hc.name) ((rest_readsAll c.data.data.toList).bind_last hend)
    have hnext := customs_steps last cs { m with customs := m.customs.push c }
      fun c' hc' => h c' (List.mem_cons_of_mem _ hc')
    rw [List.map_cons, List.flatten_cons, written, Encode.custom, section_empty_data 0 hc.size]
    have hsize : (Writer.name ByteArray.empty c.name ++ c.data).data.toList.length < 2 ^ 32 := by
      simpa only [Array.length_toList, ByteArray.size_data] using hc.size
    simpa using Steps.next (nextSection_reads_custom hsize hcontents) hnext

/-- What the encoder writes after the header: the slots in the canonical order, then the custom
sections. -/
def Module.sectionsBytes (m : Module) : List UInt8 :=
  Slot.canonical.flatMap (·.bytes m) ++ (m.customs.toList.map (written Encode.custom)).flatten

/-- The sections of a module whose sections read back are read back one after another, from
the empty module, and give the module. -/
theorem Module.sectionsBytes_steps {m : Module} (h : m.SectionsWF) :
    ∃ r, Steps {} 0 m.sectionsBytes m r := by
  obtain ⟨r, hslots⟩ := Slot.steps_list h Slot.canonical {} 0 Slot.canonical_ranks
    fun k _ => ⟨Slot.rank_pos k, k.empty_empty⟩
  rw [Slot.canonical_copy] at hslots
  have hcustoms := customs_steps r m.customs.toList { m with customs := #[] }
    fun c hc => h.customs c (Array.mem_toList_iff.mp hc)
  exact ⟨r, by simpa [Module.sectionsBytes] using hslots.append hcustoms⟩

theorem Module.encode_data (m : Module) :
    m.encode.data.toList = written word32 0x6d736100 ++ (written word32 1 ++ m.sectionsBytes) := by
  obtain ⟨types, imports, funcs, tables, memories, globals, exports, start, elements, dataCount,
    code, data, customs⟩ := m
  cases start <;> cases dataCount <;>
    simp [Module.encode, Module.sectionsBytes, Slot.canonical, Slot.bytes, VecSection.bytes,
      VecSection.get, VecSection.id, VecSection.write, indexBytes, Encode.vectorSection_data,
      ← Array.foldl_toList, Encode.appends_custom.foldl, written, Writer.word32]

/-! ## The header -/

namespace Decode

theorem rd_word32_reads (v : UInt32) : Reads (rd Reader.word32) (written Writer.word32 v) v := by
  have hl : written Writer.word32 v =
      [v.toUInt8, (v >>> 8).toUInt8, (v >>> 16).toUInt8, (v >>> 24).toUInt8] := by
    simp [written, Writer.word32]
  -- the four bytes, least significant first, are the digits of `v` in base 256
  have hv : (littleEndian [v.toUInt8, (v >>> 8).toUInt8, (v >>> 16).toUInt8,
      (v >>> 24).toUInt8].toByteArray).toUInt32 = v := by
    apply UInt32.toNat_inj.mp
    simp [littleEndian, toList_eq, UInt32.toNat_shiftRight, Nat.shiftRight_eq_div_pow]
    have := v.toNat_lt
    omega
  rw [hl]
  refine ((bytes_reads _).bind_last ?_).lift _
  rw [hv]
  exact reads_pure v

theorem rd_word32_sound : Sound (rd Reader.word32) fun _ _ => True :=
  (Sound.bind (bytes_sound 4) fun _ _ _ => sound_pure trivial).lift _

end Decode

/-! ## Both directions -/

namespace Module

/-- A module whose sections read back and whose function and body counts agree is what the
decoder reads from the encoder's bytes, up to the end. -/
theorem module_readsAll {m : Module} (h : m.WF) : ReadsAll Decode.module m.encode.data.toList m := by
  obtain ⟨r, hsteps⟩ := sectionsBytes_steps h.toSectionsWF
  rw [encode_data]
  unfold Decode.module
  refine ReadsAll.bind (placed_reads _ (rd_word32_reads _)) ?_
  simp only [bne_self_eq_false, Bool.false_eq_true, if_false]
  refine ReadsAll.bind (placed_reads _ (rd_word32_reads _)) ?_
  simp only [bne_self_eq_false, Bool.false_eq_true, if_false]
  refine ReadsAll.remaining_bind (ReadsAll.bind_last (hsteps.readsAll _ (Nat.le_refl _)) ?_)
  simp only [h.counts, bne_self_eq_false, Bool.false_eq_true, if_false]
  exact reads_pure m

/-- Encoding then decoding gives back every module whose sections read back and whose function
and body counts agree. -/
theorem decode_encode {m : Module} (h : m.WF) : Module.decode m.encode = .ok m := by
  have hrun := module_readsAll h (Cursor.ofBytes m.encode) (Nat.zero_le _) (by simp)
  simp only [Module.decode, run_eq_runFrom, hrun]

theorem partial_empty : Module.Partial {} 0 where
  vectors s := by cases s <;> exact vectorWF_empty _ _
  customs c hc := absurd hc (by simp)
  fresh s _ := by cases s <;> rfl

/-- Every module the decoder returns has sections that read back, and as many bodies as
declared functions. -/
theorem wf_of_decode {b : ByteArray} {m : Module} (h : Module.decode b = .ok m) : m.WF := by
  have hsound : Sound Decode.module fun m _ => m.WF := by
    unfold Decode.module
    refine Sound.bind (placed_sound _ rd_word32_sound) fun _ _ _ => ?_
    refine Sound.ite (fun _ => ((fails_throw _).bind _).sound) fun _ => ?_
    refine Sound.bind (placed_sound _ rd_word32_sound) fun _ _ _ => ?_
    refine Sound.ite (fun _ => ((fails_throw _).bind _).sound) fun _ => ?_
    refine Sound.bind remaining_sound fun n _ _ => ?_
    refine Sound.bind (sectionsFrom_sound n partial_empty) fun m' _ hm' => ?_
    refine Sound.ite (fun _ => ((fails_throw _).bind _).sound) fun hcount => ?_
    exact sound_pure ⟨hm', by simpa using hcount⟩
  unfold Module.decode at h
  rcases hr : Decode.module.run b with ⟨res, c⟩
  rw [hr] at h
  subst h
  obtain ⟨_, _, hwf⟩ := hsound.of_run hr
  exact hwf

/-- A module exporting one function of type `[] → [i32]` whose body is `i32.const 42`, with a
custom section named `n`. -/
def exportedFunction : Module where
  types := #[{ params := [], results := [ValType.i32] }]
  funcs := #[0]
  exports := #[{ name := "f", kind := .func, idx := 0 }]
  code := #[{ locals := [], code := ⟨#[0x41, 0x2a, 0x0b]⟩ }]
  customs := #[{ name := "n", data := ⟨#[0x01]⟩ }]

/-- Whatever the decoder accepts, it accepts again once encoded, and gives the same module. -/
theorem decode_encode_of_decode {b : ByteArray} {m : Module} (h : Module.decode b = .ok m) :
    Module.decode m.encode = .ok m :=
  decode_encode (wf_of_decode h)

/-- A module of one function type, one function with its body, one export and one custom
section, decoded from its bytes and read back after encoding. -/
theorem decode_encode_of_decode_exported_function :
    Module.decode ⟨#[0x00, 0x61, 0x73, 0x6d, 0x01, 0x00, 0x00, 0x00,
        0x01, 0x05, 0x01, 0x60, 0x00, 0x01, 0x7f,
        0x03, 0x02, 0x01, 0x00,
        0x07, 0x05, 0x01, 0x01, 0x66, 0x00, 0x00,
        0x0a, 0x06, 0x01, 0x04, 0x00, 0x41, 0x2a, 0x0b,
        0x00, 0x03, 0x01, 0x6e, 0x01]⟩ = .ok exportedFunction ∧
      Module.decode exportedFunction.encode = .ok exportedFunction :=
  have h : Module.decode ⟨#[0x00, 0x61, 0x73, 0x6d, 0x01, 0x00, 0x00, 0x00,
      0x01, 0x05, 0x01, 0x60, 0x00, 0x01, 0x7f,
      0x03, 0x02, 0x01, 0x00,
      0x07, 0x05, 0x01, 0x01, 0x66, 0x00, 0x00,
      0x0a, 0x06, 0x01, 0x04, 0x00, 0x41, 0x2a, 0x0b,
      0x00, 0x03, 0x01, 0x6e, 0x01]⟩ = .ok exportedFunction := by cbv
  ⟨h, decode_encode_of_decode h⟩

end Module

end WasmImage.Wasm
